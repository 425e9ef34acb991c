import VhdlWorkbench.Design.Instance
import VhdlWorkbench.Proofs.InstanceStatement
import VhdlWorkbench.Proofs.LabelledLines

/-!
The two patterns of a listed instance, and the instances on which they match.
-/

namespace VhdlWorkbench.Design

open Pattern Pattern.Node Declaration List Option Text

variable {x y : List Char}

section Cuts

theorem word_unique {a b : Identifier} (same : a.chars ++ x = b.chars ++ y)
    (stops : Stops isWord x)
    (stops' : Stops isWord y) : a.chars = b.chars ∧ x = y :=
  cut_unique same a.wordy stops b.wordy stops'

theorem gap_unique {a b : Gap} {w v : Identifier}
    (same : a.chars ++ (w.chars ++ x) = b.chars ++ (v.chars ++ y)) : w.chars ++ x = v.chars ++ y :=
  (cut_unique same a.blank (w.blankless_head x) b.blank (v.blankless_head y)).2

theorem Space.append_ne_cons (s : Space) {c : Char} (solid : isBlank c = false) (x y : List Char) :
    s.chars ++ x ≠ c :: y := by
  intro same
  have head := congrArg head? same
  rw [head?_append_of_ne_nil _ s.nonempty] at head
  exact s.not_mem solid (mem_of_head? head)

end Cuts

namespace UnitReference

def isEntity (u : UnitReference) : Bool :=
  match u.form with
  | .entity .. => true
  | _ => false

def isAlone (u : UnitReference) : Bool :=
  match u.form with
  | .plain => u.architecture.isNone
  | _ => false

theorem solid_text (u : UnitReference) (rest : List Char) :
    Stops isBlank (u.text ++ rest) := by
  unfold text
  cases u.form with
  | plain =>
    simp only [UnitForm.text, nil_append, append_assoc]
    exact u.unit.blankless_head _
  | entity keyword reads space library =>
    simp only [UnitForm.text, append_assoc]
    exact (reads.identifier (by decide) (by decide)).blankless_head _
  | component keyword reads space =>
    simp only [UnitForm.text, append_assoc]
    exact (reads.identifier (by decide) (by decide)).blankless_head _

end UnitReference

namespace InstanceLayout

def unitAt (l : InstanceLayout) (pos : Nat) : Nat :=
  pos + l.label.chars.length + l.afterLabel.chars.length + 1 + l.afterColon.chars.length

theorem textFrom_unit {l : InstanceLayout} {text : Array Char} {pos : Nat} (here : textFrom text pos = l.statement) :
    textFrom text (l.unitAt pos) = l.unit.text ++ (l.afterUnit.chars ++ l.mapText) :=
  textFrom_append (textFrom_cons (textFrom_append (textFrom_append here)))

end InstanceLayout

section Label

variable {text : Array Char} {t t' r : Thread} {k : Continuation} {g : Gap} {l : InstanceLayout}

def labelNode : Node :=
  start ++ gap ++ .capture 1 none identifier ++ gap ++ lit ":" ++ gap

theorem label_of_reaches (reached : Reaches text labelNode blockOptions t t') :
    LineStart text t.pos ∧ ∃ (g : Gap) (w : Identifier) (a b : Gap),
      textFrom text t.pos = g.chars ++ (w.chars ++ (a.chars ++ ':' :: (b.chars ++ textFrom text t'.pos))) ∧
      t'.spans = t.spans.setIfInBounds 1
        (some (t.pos + g.chars.length, t.pos + g.chars.length + w.chars.length)) := by
  obtain ⟨_, ⟨_, ⟨_, ⟨_, ⟨_, ⟨line, rfl⟩, lead⟩, _, name, rfl⟩, before⟩, colon⟩, behind⟩ := reached
  obtain ⟨g, atLead, -, rfl⟩ := reaches_gap lead
  obtain ⟨w, atName, rfl⟩ := reaches_identifier name
  obtain ⟨a, atGap, -, rfl⟩ := reaches_gap before
  obtain ⟨atColon, rfl⟩ := reaches_mark (c := ':') (by rfl) (by decide) colon
  obtain ⟨b, atBlank, -, rfl⟩ := reaches_gap behind
  refine ⟨(lineStart_holds_iff rfl _).mp line, g, w, a, b, ?_, rfl⟩
  rw [← atBlank, ← atColon, ← atGap, ← atName, ← atLead]

theorem labelAt_of_reaches (reached : Reaches text labelNode blockOptions t t') : LabelAt text t.pos := by
  obtain ⟨line, g, w, a, b, split, -⟩ := label_of_reaches reached
  exact ⟨line, labelled_iff.mpr ⟨g, w, a, _, split⟩⟩

/-- The text up to the first colon, and the blanks behind it, can be cut off in one way only. -/
theorem behind_label (here : textFrom text t.pos = g.chars ++ l.statement)
    (reached : Reaches text labelNode blockOptions t t') (there : textFrom text t'.pos = y)
    (solid : Stops isBlank y) : l.unit.text ++ (l.afterUnit.chars ++ l.mapText) = y := by
  obtain ⟨-, g', label', a', b', split, -⟩ := label_of_reaches reached
  have colonless (g a : Gap) (label : Identifier) :
      ∀ c ∈ g.chars ++ (label.chars ++ a.chars), decide (c ≠ ':') = true := by
    intro c member
    refine decide_eq_true ?_
    rintro rfl
    simp only [mem_append] at member
    rcases member with blank | letter | blank
    · exact g.not_mem (by decide) blank
    · exact label.not_mem (by decide) letter
    · exact a.not_mem (by decide) blank
  have stops {x : List Char} : ∀ c, (':' :: x).head? = some c → decide (c ≠ ':') = false := by
    rintro c ⟨⟩
    decide
  have whole : (g.chars ++ (l.label.chars ++ l.afterLabel.chars)) ++ ':' ::
      (l.afterColon.chars ++ (l.unit.text ++ (l.afterUnit.chars ++ l.mapText))) =
      (g'.chars ++ (label'.chars ++ a'.chars)) ++ ':' :: (b'.chars ++ y) := by
    rw [here, there, InstanceLayout.statement] at split
    simpa only [append_assoc] using split
  have tails := (cut_unique whole (colonless _ _ _) stops (colonless _ _ _) stops).2
  exact (cut_unique (cons.inj tails).2 l.afterColon.blank (l.unit.solid_text _) b'.blank solid).2

theorem exec_label (here : textFrom text t.pos = g.chars ++ l.statement) (line : LineStart text t.pos)
    (next : k ⟨l.unitAt (t.pos + g.chars.length), t.spans.setIfInBounds 1
      (some (t.pos + g.chars.length, t.pos + g.chars.length + l.label.chars.length))⟩ = some r) :
    exec text labelNode blockOptions t k = some r := by
  rw [InstanceLayout.statement] at here
  have atName := textFrom_append here
  have atGap := textFrom_append atName
  have atColon := textFrom_append atGap
  have atBlank := textFrom_cons atColon
  simp only [labelNode, exec_seq, exec_capture]
  rw [start, exec_anchor_of_holds ((lineStart_holds_iff rfl t.pos).mpr line)]
  refine exec_gap g here (l.label.blankless_head _) (Nat.zero_le _) ?_
  refine exec_identifier l.label atName (l.afterLabel.wordless_head (by rintro c ⟨⟩; decide)) ?_
  refine exec_gap l.afterLabel atGap (by rintro c ⟨⟩; decide) (Nat.zero_le _) ?_
  refine exec_mark (by rfl) atColon ?_
  exact exec_gap l.afterColon atBlank (l.unit.solid_text _) (Nat.zero_le _) next

/-- A match gives the label and the unit of an instance, and ends behind its label. -/
def Tells (l : InstanceLayout) (labelPos : Nat) (m : Match) : Prop :=
  (m.group 1 = String.ofList l.label.chars ∧ m.group 2 = String.ofList l.unit.unit.chars) ∧ labelPos < m.stop

theorem found_of_run {regex : Regex} {p s pos : Nat} (slots : regex.slots = 3)
    (least : regex.least = 0) (here : textFrom text pos = g.chars ++ l.statement)
    (atName : textFrom text p = l.unit.unit.chars ++ x) (late : pos + g.chars.length < s)
    (run : exec text regex.node regex.options ⟨pos, Array.replicate 3 none⟩ some = some ⟨s,
      ((Array.replicate 3 none).setIfInBounds 1 (some (pos + g.chars.length, pos + g.chars.length +
        l.label.chars.length))).setIfInBounds 2 (some (p, p + l.unit.unit.chars.length))⟩) :
    ∃ m, regex.matchAt text pos false = some m ∧ Tells l (pos + g.chars.length) m := by
  have inside := lt_size_of_textFrom here (by simp [InstanceLayout.statement, l.label.nonempty])
  rw [← slots] at run
  refine ⟨_, Regex.matchAt_of_exec least (Nat.le_of_lt inside) run, ⟨?_, ?_⟩, late⟩
  · exact Match.group_of_span (by simp [slots]) (textFrom_append here)
  · exact Match.group_of_span (by simp [slots]) atName

end Label

section Entity

variable {text : Array Char} {pos : Nat} {b : Bool} {g : Gap} {l : InstanceLayout}

theorem entityInstance_eq : entityInstance =
      { node := labelNode ++ lit "entity" ++ gap1 ++ libraryName ++ .capture 2 none identifier ++ edge
        options := blockOptions, slots := 3, names := [] } :=
  rfl

theorem labelAt_of_entity {m : Match} (found : entityInstance.matchAt text pos b = some m) : LabelAt text pos := by
  rw [entityInstance_eq] at found
  obtain ⟨_, label⟩ := Regex.matchAt_front 5 found
  exact labelAt_of_reaches label

theorem entity_silent (here : textFrom text pos = g.chars ++ l.statement) (other : l.unit.isEntity = false)
    (proper : ¬Reads "entity" l.unit.text) : entityInstance.matchAt text pos b = none := by
  rw [eq_none_iff_forall_not_mem]
  intro m found
  rw [mem_def, entityInstance_eq] at found
  obtain ⟨_, _, ⟨_, label, word⟩, blanks⟩ := Regex.matchAt_front 3 found
  obtain ⟨w, reads, atWord, -⟩ := reaches_word word
  obtain ⟨a, atGap, enough, -⟩ := reaches_gap blanks
  let entity := reads.identifier (by decide) (by decide)
  let space : Space := ⟨a, length_pos_iff.mp enough⟩
  rw [atGap] at atWord
  have split := behind_label here label atWord (entity.blankless_head _)
  simp only [UnitReference.text, append_assoc] at split
  cases form : l.unit.form with
  | plain =>
    rw [form, UnitForm.text, nil_append] at split
    obtain ⟨same, behind⟩ := word_unique (b := entity) split l.stops_unit (space.wordless_head _)
    cases inside : l.unit.architecture with
    | none =>
      have whole : l.unit.text = l.unit.unit.chars := by
        simp [UnitReference.text, UnitReference.suffix, form, UnitForm.text, inside]
      exact proper (by rw [whole, same]; exact reads)
    | some letters =>
      rw [UnitReference.suffix, inside] at behind
      exact space.append_ne_cons (by decide) _ _ behind.symm
  | component keyword reads' space' =>
    simp only [form, UnitForm.text, append_assoc] at split
    have same := (word_unique (a := reads'.identifier (by decide) (by decide)) (b := entity) split
      (space'.wordless_head _) (space.wordless_head _)).1
    have length := reads'.length_eq
    rw [show keyword = w from same, reads.length_eq] at length
    exact absurd length (by decide)
  | entity keyword reads' space' library => simp [UnitReference.isEntity, form] at other

theorem entity_found (here : textFrom text pos = g.chars ++ l.statement) (line : LineStart text pos)
    (isEntity : l.unit.isEntity = true) :
    ∃ m, entityInstance.matchAt text pos false = some m ∧ Tells l (pos + g.chars.length) m := by
  cases form : l.unit.form with
  | plain => simp [UnitReference.isEntity, form] at isEntity
  | component => simp [UnitReference.isEntity, form] at isEntity
  | entity keyword reads space library =>
    have atUnit := l.textFrom_unit (textFrom_append here)
    simp only [UnitReference.text, form, UnitForm.text, append_assoc, cons_append, nil_append] at atUnit
    have behindWord := textFrom_append atUnit
    have atLibrary := textFrom_append behindWord
    have atDot := textFrom_append atLibrary
    have atName := textFrom_cons atDot
    refine found_of_run (s := l.unitAt (pos + g.chars.length) + keyword.length + space.chars.length +
      library.chars.length + 1 + l.unit.unit.chars.length) (by rfl) rfl here atName
      (by simp only [InstanceLayout.unitAt]; omega) ?_
    rw [entityInstance_eq]
    simp only [exec_seq, exec_capture]
    refine exec_label here line ?_
    refine exec_word reads atUnit ?_
    refine exec_gap space.toGap behindWord (library.blankless_head _) (length_pos_iff.mpr space.nonempty) ?_
    refine exec_optional_of_some ?_
    refine exec_identifier library atLibrary (by rintro c ⟨⟩; decide) ?_
    refine exec_mark (by rfl) atDot ?_
    refine exec_identifier l.unit.unit atName l.stops_unit ?_
    exact exec_edge l.unit.unit atName l.stops_unit rfl

end Entity

section Component

variable {text : Array Char} {t t' r : Thread} {k : Continuation} {pos : Nat} {b : Bool} {g : Gap} {l : InstanceLayout}

theorem componentInstance_eq : componentInstance =
      { node := labelNode ++ libraryName ++ .capture 2 none identifier ++ gap1 ++
          oneOf [lit "generic", lit "port"] ++ gap1 ++ lit "map" ++ edge
        options := blockOptions, slots := 3, names := [] } :=
  rfl

theorem labelAt_of_component {m : Match} (found : componentInstance.matchAt text pos b = some m) : LabelAt text pos := by
  rw [componentInstance_eq] at found
  obtain ⟨_, label⟩ := Regex.matchAt_front 7 found
  exact labelAt_of_reaches label

/-- The unit as the pattern of components reads it: with a library, or directly before a map. -/
def MapAhead (x : List Char) : Prop :=
  (∃ y, x = '.' :: y) ∨
    ∃ (a : Space) (kind : Identifier) (b : Space) (word : Identifier) (y : List Char),
      x = a.chars ++ (kind.chars ++ (b.chars ++ (word.chars ++ y))) ∧ Reads "map" word.chars ∧
      ∀ c, y.head? = some c → isWord c = false

theorem kind_of_reaches (reached : Reaches text (oneOf [lit "generic", lit "port"]) blockOptions t t') :
    ∃ kind : Identifier, textFrom text t.pos = kind.chars ++ textFrom text t'.pos := by
  rcases reached with generic | port
  · obtain ⟨w, reads, here, -⟩ := reaches_word generic
    exact ⟨reads.identifier (by decide) (by decide), here⟩
  · obtain ⟨w, reads, here, -⟩ := reaches_word port
    exact ⟨reads.identifier (by decide) (by decide), here⟩

theorem unit_of_reaches (reached : Reaches text (libraryName ++ (.capture 2 none identifier ++ (gap1 ++
      (oneOf [lit "generic", lit "port"] ++ (gap1 ++ (lit "map" ++ edge)))))) blockOptions t t') :
    ∃ (w : Identifier) (x : List Char), textFrom text t.pos = w.chars ++ x ∧ MapAhead x := by
  obtain ⟨_, library, _, ⟨_, name, rfl⟩, _, blanks, _, kind, _, blanks', u, word, edged, rfl⟩ := reached
  rcases reaches_optional library with rfl | ⟨_, first, dot⟩
  · obtain ⟨w, atName, -⟩ := reaches_identifier name
    obtain ⟨a, atGap, enough, -⟩ := reaches_gap blanks
    obtain ⟨kind, atKind⟩ := kind_of_reaches kind
    obtain ⟨b, atGap', enough', -⟩ := reaches_gap blanks'
    obtain ⟨m, reads, atWord, rfl⟩ := reaches_word word
    let map := reads.identifier (by decide) (by decide)
    have stops := (wordEdge_behind_iff atWord map.nonempty map.wordy).mp edged
    refine ⟨w, _, atName, Or.inr ⟨⟨a, length_pos_iff.mp enough⟩, kind, ⟨b, length_pos_iff.mp enough'⟩, map, _, ?_,
      reads, stops⟩⟩
    exact atGap.trans (congrArg _ (atKind.trans (congrArg _ (atGap'.trans (congrArg _ atWord)))))
  · obtain ⟨w, atName, -⟩ := reaches_identifier first
    obtain ⟨atDot, -⟩ := reaches_mark (c := '.') (by rfl) (by decide) dot
    exact ⟨w, _, atName, Or.inl ⟨_, atDot⟩⟩

theorem MapAhead.stops (ahead : MapAhead x) : Stops isWord x := by
  rcases ahead with ⟨y, rfl⟩ | ⟨a, kind, b, word, y, rfl, -, -⟩
  · rintro c ⟨⟩
    decide
  · exact a.wordless_head _

theorem not_mapAhead_mark {c : Char} (solid : isBlank c = false) (other : c ≠ '.') : ¬MapAhead (c :: y) := by
  rintro (⟨_, dot⟩ | ⟨a, kind, b, word, _, split, -, -⟩)
  · exact other (cons.inj dot).1
  · exact a.append_ne_cons solid _ _ split.symm

theorem not_mapAhead_space {s : Space} {name : Identifier} (stops : Stops isWord y)
    (other : ∀ (b : Space) (word : Identifier) (z : List Char), y = b.chars ++ (word.chars ++ z) →
      Reads "map" word.chars → ¬Stops isWord z) :
    ¬MapAhead (s.chars ++ (name.chars ++ y)) := by
  rintro (⟨_, dot⟩ | ⟨a, kind, b, word, z, split, reads, ends⟩)
  · exact s.append_ne_cons (by decide) _ _ dot
  · obtain ⟨-, same⟩ := word_unique (gap_unique split) stops (b.wordless_head _)
    exact other b word z same reads ends

/-- The pattern of components does not match an instance that names its unit in another form. -/
theorem component_silent (here : textFrom text pos = g.chars ++ l.statement) (other : l.unit.isAlone = false) :
    componentInstance.matchAt text pos b = none := by
  rw [eq_none_iff_forall_not_mem]
  intro m found
  rw [mem_def, componentInstance_eq] at found
  obtain ⟨_, ⟨_, ⟨_, ⟨_, ⟨_, ⟨_, ⟨_, ⟨_, label, library⟩, name⟩, blanks⟩, kind⟩, blanks'⟩, word⟩, edged⟩, -⟩ :=
    Regex.matchAt_reaches found
  obtain ⟨w, x, there, ahead⟩ := unit_of_reaches ⟨_, library, _, name, _, blanks, _, kind, _, blanks', _, word, edged⟩
  have split := behind_label here label there (w.blankless_head _)
  simp only [UnitReference.text, append_assoc] at split
  cases form : l.unit.form with
  | plain =>
    rw [form, UnitForm.text, nil_append] at split
    obtain ⟨-, rfl⟩ := word_unique split l.stops_unit ahead.stops
    cases inside : l.unit.architecture with
    | none => simp [UnitReference.isAlone, form, inside] at other
    | some letters =>
      rw [UnitReference.suffix, inside] at ahead
      exact not_mapAhead_mark (by decide) (by decide) ahead
  | entity keyword reads space library =>
    simp only [form, UnitForm.text, append_assoc, cons_append, nil_append] at split
    obtain ⟨-, rfl⟩ := word_unique (a := reads.identifier (by decide) (by decide)) split (space.wordless_head _)
      ahead.stops
    refine not_mapAhead_space (by rintro c ⟨⟩; decide) ?_ ahead
    intro b word z dot
    exact absurd dot.symm (b.append_ne_cons (by decide) _ _)
  | component keyword reads space =>
    simp only [form, UnitForm.text, append_assoc] at split
    obtain ⟨-, rfl⟩ := word_unique (a := reads.identifier (by decide) (by decide)) split (space.wordless_head _)
      ahead.stops
    refine not_mapAhead_space l.stops_unit ?_ ahead
    intro b word z same reads' ends
    cases inside : l.unit.architecture with
    | some letters =>
      rw [UnitReference.suffix, inside] at same
      exact b.append_ne_cons (by decide) _ _ same.symm
    | none =>
      rw [UnitReference.suffix, inside, nil_append, InstanceLayout.mapText] at same
      obtain ⟨again, -⟩ := word_unique (gap_unique (w := l.mapsWord) same) (l.between.wordless_head _) ends
      obtain ⟨text, listed, reads''⟩ := l.isMaps
      have length := reads''.length_eq
      rw [show l.maps = word.chars from again, reads'.length_eq] at length
      simp only [mem_cons, not_mem_nil, or_false] at listed
      rcases listed with rfl | rfl <;> exact absurd length (by decide)

theorem exec_maps (here : textFrom text t.pos = l.mapText)
    (next : k ⟨t.pos + l.maps.length + l.between.chars.length + l.word.length, t.spans⟩ = some r) :
    exec text (oneOf [lit "generic", lit "port"] ++ (gap1 ++ (lit "map" ++ edge))) blockOptions t k = some r := by
  have atGap := textFrom_append (show _ = l.maps ++ _ from here)
  have atWord := textFrom_append atGap
  have behind : exec text (gap1 ++ (lit "map" ++ edge)) blockOptions ⟨t.pos + l.maps.length, t.spans⟩ k = some r := by
    simp only [exec_seq]
    refine exec_gap l.between.toGap atGap (l.mapWord.blankless_head _) (length_pos_iff.mpr l.between.nonempty) ?_
    refine exec_word l.isMap atWord ?_
    rwa [exec_edge l.mapWord atWord l.stops_behind rfl]
  rw [exec_seq]
  show exec text (.alt (lit "generic") (lit "port")) blockOptions t _ = some r
  rw [exec_alt]
  obtain ⟨word, listed, reads⟩ := l.isMaps
  simp only [mem_cons, not_mem_nil, or_false] at listed
  rcases listed with rfl | rfl
  · rw [exec_word reads here behind, some_or]
  · -- the letters of `generic` would be the whole word
    have fails : exec text (lit "generic") blockOptions t
        (fun t' => exec text (gap1 ++ (lit "map" ++ edge)) blockOptions t' k) = none := by
      rw [eq_none_iff_forall_not_mem]
      intro r' success
      obtain ⟨_, first, later⟩ := exec_reaches _ _ _ _ _ success
      obtain ⟨_, blanks, -⟩ := exec_reaches gap1 _ _ _ _ later
      obtain ⟨w, reads', atKind, -⟩ := reaches_word first
      obtain ⟨a, behindKind, enough, -⟩ := reaches_gap blanks
      let space : Space := ⟨a, length_pos_iff.mp enough⟩
      rw [here, behindKind] at atKind
      have same := (word_unique (a := l.mapsWord) (b := reads'.identifier (by decide) (by decide)) atKind
        (l.between.wordless_head _) (space.wordless_head _)).1
      have length := reads'.length_eq
      rw [← show l.maps = w from same, reads.length_eq] at length
      exact absurd length (by decide)
    rw [fails, none_or, exec_word reads here behind]

theorem component_found (here : textFrom text pos = g.chars ++ l.statement) (line : LineStart text pos)
    (alone : l.unit.isAlone = true) :
    ∃ m, componentInstance.matchAt text pos false = some m ∧ Tells l (pos + g.chars.length) m := by
  cases form : l.unit.form with
  | entity => simp [UnitReference.isAlone, form] at alone
  | component => simp [UnitReference.isAlone, form] at alone
  | plain =>
    simp only [UnitReference.isAlone, form, isNone_iff_eq_none] at alone
    have atUnit := l.textFrom_unit (textFrom_append here)
    have stops := l.stops_unit
    simp only [UnitReference.text, form, UnitForm.text, UnitReference.suffix, alone, append_nil,
      nil_append] at atUnit stops
    have behindUnit := textFrom_append atUnit
    have atMaps := textFrom_append behindUnit
    refine found_of_run (s := l.unitAt (pos + g.chars.length) + l.unit.unit.chars.length + l.afterUnit.chars.length +
      l.maps.length + l.between.chars.length + l.word.length) (by rfl) rfl here atUnit
      (by simp only [InstanceLayout.unitAt]; omega) ?_
    rw [componentInstance_eq]
    simp only [exec_seq, exec_capture]
    refine exec_label here line ?_
    refine exec_optional_of_none ?_ ?_
    · -- no dot stands behind the name
      rw [eq_none_iff_forall_not_mem]
      intro r' success
      obtain ⟨_, ⟨_, name, dot⟩, -⟩ := exec_reaches (.group (identifier ++ lit ".")) _ _ _ _ success
      obtain ⟨w, atName, -⟩ := reaches_identifier name
      obtain ⟨atDot, -⟩ := reaches_mark (c := '.') (by rfl) (by decide) dot
      rw [atUnit, atDot] at atName
      have same := (word_unique atName stops (by rintro c ⟨⟩; decide)).2
      exact Space.append_ne_cons ⟨l.afterUnit, l.spaced alone⟩ (by decide) _ _ same
    · refine exec_identifier l.unit.unit atUnit stops ?_
      refine exec_gap l.afterUnit behindUnit (l.mapsWord.blankless_head _)
        (length_pos_iff.mpr (l.spaced alone)) ?_
      exact exec_maps (t := ⟨_, _⟩) atMaps rfl

end Component

end VhdlWorkbench.Design

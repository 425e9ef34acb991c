import VhdlWorkbench.Declaration.Record
import VhdlWorkbench.Proofs.RecordLookup

/-!
The fields of a looked up record: which of them are reported.
-/

namespace VhdlWorkbench.Design

open String (ofList toList_ofList)
open Pattern Pattern.Node Declaration List String Text Regex Bool

/-- A word that begins with the letters of `end` ends a record that stands on one line. -/
abbrev startsEnd : PlaceKind :=
  startsWord "end".toList

theorem startsEnd_stopsAt : StopsAt startsEnd ';' :=
  startsWord_stopsAt (by decide) (by decide)

theorem startsEnd_solid (inside : Bool) (c : Char) (rest : List Char) (blank : isBlank c = true) :
    startsEnd inside (c :: rest) = false :=
  startsWord_of_blank (by decide) (by decide) inside c rest blank

def fieldReport (d : Declaration) : String × Option String :=
  (d.name, d.type.map Text.trim)

namespace RecordField

def declared (f : RecordField) : String × Option String :=
  (ofList f.name.chars, some (Text.trim (collapse (ofList f.type))))

/-- Nothing in the declaration of the field is taken for the end of the record. -/
def Clear (f : RecordField) : Prop :=
  occurs startsEnd false f.declaration = false ∧ occurs (fun _ => opensEnd) false f.declaration = false

instance (f : RecordField) : Decidable f.Clear :=
  inferInstanceAs (Decidable (_ ∧ _))

end RecordField

section Collapse

def Gap.collapsed (g : Gap) : Gap where
  chars := collapseFrom false g.chars
  blank := collapseFrom_blank g.blank false

theorem Space.collapse (g : Space) : collapseFrom false g.chars = [' '] := by
  have none (blanks : List Char) (blank : ∀ c ∈ blanks, isBlank c = true) : collapseFrom true blanks = [] := by
    induction blanks with
    | nil => rfl
    | cons c blanks ih =>
      rw [forall_mem_cons] at blank
      rw [collapseFrom, if_pos blank.1, if_pos rfl, ih blank.2]
  obtain ⟨c, cs, letters⟩ := exists_cons_of_ne_nil g.nonempty
  have blank := g.blank
  rw [letters, forall_mem_cons] at blank
  rw [letters, collapseFrom, if_pos blank.1, if_neg Bool.false_ne_true, none cs blank.2]

theorem isPrefixOf_collapse {letters : List Char} (solid : ∀ c ∈ letters, isBlank c = false)
    (cs : List Char) : letters.isPrefixOf (collapseFrom false cs) = letters.isPrefixOf cs := by
  induction letters generalizing cs with
  | nil => simp
  | cons d ds ih =>
    rw [forall_mem_cons] at solid
    cases cs with
    | nil => rfl
    | cons c cs =>
      rw [collapseFrom]
      split
      · next blank =>
        have other {b : Char} (blank : isBlank b = true) : d ≠ b := by
          rintro rfl
          simp [blank] at solid
        rw [if_neg Bool.false_ne_true, List.isPrefixOf, List.isPrefixOf, beq_false_of_ne (other blank),
          beq_false_of_ne (other (by decide)), Bool.false_and, Bool.false_and]
      · rw [List.isPrefixOf, List.isPrefixOf, ih solid.2]

/-- The words of a text in one line begin as they do in the text. -/
theorem occurs_collapse {letters : List Char} (nonempty : letters ≠ [])
    (solid : ∀ c ∈ letters, isBlank c = false) (inside blank : Bool) (loose : blank = true → inside = false)
    (cs : List Char) :
    occurs (startsWord letters) inside (collapseFrom blank cs) = occurs (startsWord letters) inside cs := by
  have passed := startsWord_of_blank nonempty solid
  induction cs generalizing inside blank with
  | nil => rfl
  | cons c cs ih =>
    rw [collapseFrom]
    split
    · next space =>
      have behind := ih false true fun _ => rfl
      rw [occurs, passed _ _ _ space, isWord_of_isBlank space, Bool.false_or]
      split
      · next before => rw [loose before, behind]
      · rw [occurs, passed _ _ _ (by decide), show isWord ' ' = false from by decide, Bool.false_or, behind]
    · next other =>
      have blankless : isBlank c = false := by simpa using other
      have here : startsWord letters inside (c :: collapseFrom false cs) = startsWord letters inside (c :: cs) := by
        have whole := isPrefixOf_collapse solid (c :: cs)
        rw [collapseFrom, if_neg other] at whole
        rw [startsWord, startsWord, whole]
      rw [occurs, occurs, here, ih (isWord c) false fun before => absurd before Bool.false_ne_true]

namespace RecordField

def collapsed (f : RecordField) : RecordField where
  name := f.name
  afterName := f.afterName.collapsed
  afterColon := f.afterColon.collapsed
  type := collapseFrom false f.type
  typed := by
    obtain ⟨c, cs, letters⟩ := exists_cons_of_ne_nil f.typed
    have solid := f.opens c (by rw [letters, head?_cons])
    simp [letters, collapseFrom, solid]
  opens := by
    obtain ⟨c, cs, letters⟩ := exists_cons_of_ne_nil f.typed
    have solid := f.opens c (by rw [letters, head?_cons])
    simp [letters, collapseFrom, solid]
  unmarked := by
    intro c member
    rcases mem_collapseFrom member with rfl | ⟨-, letter⟩
    · decide
    · exact f.unmarked c letter
  after := f.after.collapsed

theorem collapsed_declaration (f : RecordField) : f.collapsed.declaration = collapseFrom false f.declaration := by
  rw [declaration, declaration, collapseFrom_word false f.name.nonempty f.name.solid, collapseFrom_append (by decide),
    collapseFrom_split f.opens]
  rfl

theorem collapse_text (f : RecordField) {rest : List Char}
    (stops : Stops isBlank rest) :
    collapseFrom false (f.text ++ rest) = f.collapsed.text ++ collapseFrom false rest := by
  rw [text, text, List.append_assoc, List.cons_append, collapseFrom_append (by decide), collapseFrom_split stops,
    collapsed_declaration, List.append_assoc]
  rfl

theorem fields_head (fields : List RecordField) (rest : List Char) {P : Char → Prop}
    (wordy : ∀ c, isWord c = true → P c) (stops : ∀ c, rest.head? = some c → P c) :
    ∀ c, (fields.flatMap text ++ rest).head? = some c → P c := by
  cases fields with
  | nil => exact stops
  | cons f fields =>
    intro c head
    rw [List.flatMap_cons, text, declaration, List.append_assoc, List.append_assoc, List.append_assoc,
      head?_append_of_ne_nil _ f.name.nonempty] at head
    exact wordy c (f.name.wordy c (mem_of_head? head))

theorem collapse_fields (fields : List RecordField) {rest : List Char}
    (stops : Stops isBlank rest) :
    collapseFrom false (fields.flatMap text ++ rest) =
      (fields.map collapsed).flatMap text ++ collapseFrom false rest := by
  induction fields with
  | nil => rfl
  | cons f fields ih =>
    have next := fields_head fields rest (fun c wordy => isBlank_of_isWord wordy) stops
    rw [List.flatMap_cons, List.append_assoc, collapse_text f next, ih, List.map_cons, List.flatMap_cons,
      List.append_assoc]

theorem occurs_collapsed (f : RecordField) :
    occurs startsEnd false f.collapsed.declaration = occurs startsEnd false f.declaration := by
  rw [collapsed_declaration]
  exact occurs_collapse (by decide) (by decide) false false (fun before => absurd before false_ne_true) _

end RecordField

theorem RecordLayout.collapse_head (layout : RecordLayout) (rest : List Char) :
    collapseFrom false (layout.head ++ rest) = layout.head ++ collapseFrom false rest := by
  have space {cs : List Char} : collapseFrom false (' ' :: cs) = ' ' :: collapseFrom true cs := by
    rw [collapseFrom, if_pos (by decide), if_neg Bool.false_ne_true]
  simp only [head_append, singleton_append]
  rw [collapseFrom_word false (by decide) (by decide), space, collapseFrom_word true layout.name.nonempty layout.name.solid, space,
    collapseFrom_word true (by decide) (by decide), space, collapseFrom_word true (by decide) (by decide)]

end Collapse

section Body

variable {text : Array Char} {t r : Thread} {k : Continuation} {pos i : Nat} {cs rest : List Char}

theorem recordBody_eq :
    recordBody =
      { node := edge ++ lit "record" ++ gap1 ++ .capture 1 none (few .any) ++ edge ++ lit "end", options := {},
        slots := 2, names := [] } :=
  rfl

theorem standsWord_of_matchAt {m : Match} (here : textFrom text 0 = cs) (inside : i ≤ cs.length)
    (found : recordBody.matchAt text i false = some m) :
    standsWord "record".toList (flagAt false cs i) (cs.drop i) = true := by
  rw [recordBody_eq] at found
  obtain ⟨t, _, ⟨_, ⟨edged, rfl⟩, word⟩, blanks⟩ := matchAt_front 3 found
  obtain ⟨loose, atWord⟩ := loose_of_reaches rfl (by rfl) (by decide) ⟨edged, rfl⟩ word
  obtain ⟨g, atGap, enough, -⟩ := reaches_gap blanks
  have flag : flagAt false cs i = false :=
    (loose_add_iff here (fun _ _ first => absurd rfl first) inside).mp (by rwa [Nat.zero_add])
  have behind : cs.drop i = "record".toList ++ (g.chars ++ textFrom text t.pos) := by
    rw [← here, ← textFrom_add, Nat.zero_add, ← atGap]
    exact atWord
  have whole : (cs.drop i).takeWhile isWord = "record".toList := by
    rw [behind]
    exact takeWhile_append_of_stop (by decide) (Space.wordless_head ⟨g, length_pos_iff.mp enough⟩ _)
  simp [standsWord, flag, whole]

section

variable (here : textFrom text pos = cs) (loose : Loose text pos) (inside : i ≤ cs.length)
  (place : t.pos = pos + i)
include here loose inside place

theorem exec_closing_of_not (other : startsEnd (flagAt false cs i) (cs.drop i) = false) :
    exec text (edge ++ lit "end") {} t k = none := by
  cases success : exec text (edge ++ lit "end") {} t k with
  | none => rfl
  | some _ =>
    obtain ⟨_, ⟨_, ⟨edged, rfl⟩, word⟩, -⟩ := exec_reaches _ _ _ _ _ success
    obtain ⟨loose', atWord⟩ := loose_of_reaches rfl (by rfl) (by decide) ⟨edged, rfl⟩ word
    rw [place] at loose' atWord
    have flag := (loose_add_iff here loose inside).mp loose'
    rw [textFrom_add, here] at atWord
    simp [startsWord, flag, atWord] at other

theorem exec_closing (found : startsEnd (flagAt false cs i) (cs.drop i) = true)
    (next : k { t with pos := t.pos + 3 } = some r) : exec text (edge ++ lit "end") {} t k = some r := by
  simp only [startsWord, and_eq_true, not_eq_true', isPrefixOf_iff_prefix] at found
  obtain ⟨flag, tail, behind⟩ := found
  have loose' : Loose text t.pos := place ▸ (loose_add_iff here loose inside).mpr flag
  have atWord : textFrom text t.pos = "end".toList ++ tail := by rw [place, textFrom_add, here, behind]
  have first : text[t.pos]? = some 'e' := by rw [head?_of_textFrom atWord]; rfl
  rw [exec_seq, edge, exec_anchor_of_holds ((wordEdge_before_iff first (by decide)).mpr loose')]
  exact exec_lit_of_cased rfl atWord next

end

/-- The text between the blank behind the word `record` and the end. -/
def shown (rest : List Char) : List Char :=
  cutBefore startsEnd false rest

theorem exists_bodyMatch (here : textFrom text pos = "record".toList ++ ' ' :: rest) (loose : Loose text pos)
    (opens : Stops isBlank rest) (line : '\n' ∉ rest) (found : (shown rest).length < rest.length) :
    ∃ m, recordBody.matchAt text pos false = some m ∧ m.group 1 = ofList (shown rest) := by
  have first : text[pos]? = some 'r' := by rw [head?_of_textFrom here]; rfl
  have inside := lt_size_of_textFrom here (cons_ne_nil _ _)
  have atBlank : textFrom text (pos + 6) = ' ' :: rest := textFrom_append here
  have atRest : textFrom text (pos + 7) = rest := textFrom_cons atBlank
  have loose' : Loose text (pos + 7) := by
    intro d last _
    rw [show pos + 7 - 1 = pos + 6 by omega, head?_of_textFrom atBlank] at last
    obtain rfl := Option.some.inj last
    decide
  have split := atRest.trans (cutBefore_append_drop startsEnd false rest).symm
  apply Exists.intro
  apply And.intro
  · apply matchAt_of_exec rfl (Nat.le_of_lt inside)
    rw [recordBody_eq]
    simp only [exec_seq]
    rw [edge, exec_anchor_of_holds ((wordEdge_before_iff first (by decide)).mpr loose)]
    apply exec_lit_of_cased rfl here
    apply exec_gap oneSpace.toGap (show textFrom text (pos + 6) = oneSpace.chars ++ rest from atBlank) opens
      (by decide)
    rw [exec_capture]
    apply exec_few_of_segment (show textFrom text (pos + 7) = _ from split)
    · intro c member
      have solid : c ≠ '\n' := by
        rintro rfl
        exact line (mem_of_mem_cutBefore member)
      simpa [Single.accepts] using solid
    · intro i early
      exact exec_closing_of_not atRest loose' (Nat.le_of_lt (Nat.lt_trans early found)) rfl (cutBefore_early early)
    · exact exec_closing atRest loose' (Nat.le_of_lt found) rfl (cutBefore_found found) rfl
  · exact congrArg ofList (segment_of_textFrom split)

theorem cutBefore_head (layout : RecordLayout) (proper : layout.name.chars ≠ "record".toList) (rest : List Char) :
    cutBefore (standsWord "record".toList) false (layout.head ++ ' ' :: rest) =
      "type".toList ++ ' ' :: (layout.name.chars ++ ' ' :: ("is".toList ++ [' '])) := by
  have stops : StopsAt (standsWord "record".toList) ' ' := standsWord_stopsAt (by decide) (by decide)
  have word : standsWord "record".toList false ("record".toList ++ ' ' :: rest) = true := by
    have whole : ("record".toList ++ ' ' :: rest).takeWhile isWord = "record".toList :=
      takeWhile_append_of_stop (by decide) (by rintro c ⟨⟩; decide)
    rw [standsWord, whole]
    rfl
  simp only [RecordLayout.head_append, singleton_append]
  rw [cutBefore_mark stops (by decide), show occurs (standsWord "record".toList) false "type".toList = false by decide,
    if_neg Bool.false_ne_true, cutBefore_mark stops (by decide), occurs_standsWord layout.name proper,
    if_neg Bool.false_ne_true, cutBefore_mark stops (by decide),
    show occurs (standsWord "record".toList) false "is".toList = false by decide, if_neg Bool.false_ne_true,
    cutBefore_eq_nil word]

/-- The fields are looked for up to the first word that begins with the letters of `end`. -/
theorem search_body (layout : RecordLayout) (proper : layout.name.chars ≠ "record".toList)
    (opens : Stops isBlank rest) (line : '\n' ∉ rest)
    (found : (shown rest).length < rest.length) :
    ∃ m, recordBody.search? (ofList (layout.head ++ ' ' :: rest)) = some m ∧
      m.group 1 = ofList (shown rest) := by
  let front := cutBefore (standsWord "record".toList) false (layout.head ++ ' ' :: rest)
  have split : layout.head ++ ' ' :: rest = front ++ ("record".toList ++ ' ' :: rest) := by
    simp only [front, cutBefore_head layout proper, layout.head_append, List.append_assoc, List.cons_append,
      nil_append]
  let text := (layout.head ++ ' ' :: rest).toArray
  have here : textFrom text 0 = layout.head ++ ' ' :: rest := textFrom_zero _
  have atWord : textFrom text (0 + front.length) = "record".toList ++ ' ' :: rest := textFrom_append (here.trans split)
  have fails : ∀ i < front.length, recordBody.matchAt text (0 + i) false = none := by
    intro i early
    rw [Nat.zero_add]
    cases success : recordBody.matchAt text i false with
    | none => rfl
    | some m =>
      have inside : i ≤ (layout.head ++ ' ' :: rest).length := by
        rw [split, List.length_append]
        omega
      have stands := standsWord_of_matchAt here inside success
      rw [cutBefore_early early] at stands
      exact Bool.noConfusion stands
  have last : front.getLast? = some ' ' := by
    simp [front, cutBefore_head layout proper, getLast?_append, getLast?_cons]
  have loose : Loose text (0 + front.length) := by
    intro d before _
    rw [(getElem?_last_of_textFrom (here.trans split) last).2] at before
    obtain rfl := Option.some.inj before
    decide
  obtain ⟨m, matched, body⟩ := exists_bodyMatch atWord loose opens line found
  refine ⟨m, ?_, body⟩
  rw [search?, toList_ofList, searchFrom_skip rfl fails]
  exact searchFrom_of_matchAt rfl matched

end Body

section Fields

variable {text : Array Char} {t : Thread} {rest : List Char}

def fieldOptions : Options :=
  { multiline := true }

instance : Full fieldOptions :=
  ⟨rfl⟩

def commentNode : Node :=
  .capture 3 none (lit "--" ++ .capture 4 (some "comment") (few .any ++ lit "\n"))

theorem recordField_eq :
    recordField =
      { node :=
          .capture 1 (some "name") identifier ++ gap ++ lit ":" ++ gap ++
            .capture 2 (some "type") (many1 (.set true [.char ';'])) ++ lit ";" ++ gap ++ Node.optional commentNode
        options := fieldOptions, slots := 5, names := [("name", 1), ("type", 2), ("comment", 4)] } :=
  rfl

theorem semicolon_mem_of_matchAt {pos : Nat} {b : Bool} {m : Match}
    (found : recordField.matchAt text pos b = some m) : ';' ∈ segment text m.start m.stop := by
  rw [recordField_eq] at found
  obtain ⟨t, ⟨_, ⟨_, ⟨s, before, mark⟩, blanks⟩, comment⟩, rfl⟩ := matchAt_reaches found
  obtain ⟨here, rfl⟩ := reaches_cased rfl mark
  have first : pos ≤ s.pos := before.pos_le
  have last : s.pos + 1 ≤ t.pos := Nat.le_trans blanks.pos_le comment.pos_le
  have there : text[s.pos]? = some ';' := by rw [head?_of_textFrom here]; rfl
  obtain ⟨i, place⟩ := Nat.exists_eq_add_of_le first
  show ';' ∈ segment text pos t.pos
  rw [segment_eq_take]
  refine mem_of_getElem? (i := i) ?_
  rw [getElem?_take_of_lt (by omega), ← getElem?_textFrom, ← place, there]

theorem length_matches_le (cs : List Char) :
    (recordField.matches_ (ofList cs)).length ≤ cs.count ';' := by
  rw [matches_, toList_ofList]
  conv_rhs => rw [← textFrom_zero cs]
  exact length_matchesFrom_le (fun _ _ _ => semicolon_mem_of_matchAt) _ 0 false

theorem length_recordFields_le (s : String) : (recordFields s).length ≤ s.toList.count ';' := by
  unfold recordFields
  split
  · exact Nat.zero_le _
  · next m found =>
    obtain ⟨place, b, there⟩ := exists_matchAt_of_search found
    have source : m.source = s.toList.toArray := by
      obtain ⟨_, -, rfl⟩ := matchAt_reaches there
      rfl
    have taken := m.group_sublist 1
    rw [source] at taken
    rw [List.length_map, ← ofList_toList (s := m.group 1)]
    exact Nat.le_trans (length_matches_le _) (taken.count_le ';')

theorem exec_comment_of_wordy {k : Continuation} (here : textFrom text t.pos = rest)
    (wordy : ∀ c, rest.head? = some c → isWord c = true) : exec text commentNode fieldOptions t k = none := by
  cases success : exec text commentNode fieldOptions t k with
  | none => rfl
  | some _ =>
    obtain ⟨_, ⟨_, ⟨_, dashes, -⟩, -⟩, -⟩ := exec_reaches _ _ _ _ _ success
    have dash := (reaches_cased rfl dashes).1
    rw [here] at dash
    have word := wordy '-' (by rw [dash]; rfl)
    exact absurd word (by decide)

theorem exists_fieldMatch (f : RecordField) {pos : Nat} (here : textFrom text pos = f.text ++ rest)
    (wordy : ∀ c, rest.head? = some c → isWord c = true) :
    ∃ m, recordField.matchAt text pos false = some m ∧ m.stop = pos + f.text.length ∧
      m.named? "name" = some (ofList f.name.chars) ∧ m.named? "type" = some (ofList f.type) := by
  have inside := lt_size_of_textFrom here (by simp [RecordField.text])
  rw [RecordField.text, RecordField.declaration] at here
  simp only [List.append_assoc, List.cons_append] at here
  have atBlank := textFrom_append here
  have atColon := textFrom_append atBlank
  have atGap := textFrom_cons atColon
  have atType := textFrom_append atGap
  have atMark := textFrom_append atType
  have atAfter := textFrom_cons atMark
  have atRest := textFrom_append atAfter
  have opens : Stops isBlank (f.type ++ ';' :: (f.after.chars ++ rest)) := by
    intro c head
    rw [head?_append_of_ne_nil _ f.typed] at head
    exact f.opens c head
  apply Exists.intro
  apply And.intro
  · apply matchAt_of_exec rfl (Nat.le_of_lt inside)
    rw [recordField_eq]
    simp only [exec_seq, exec_capture]
    apply exec_identifier f.name here (f.afterName.wordless_head (by rintro c ⟨⟩; decide))
    apply exec_gap f.afterName atBlank (by rintro c ⟨⟩; decide) (Nat.zero_le _)
    apply exec_lit_of_cased rfl atColon
    apply exec_gap f.afterColon atGap opens (Nat.zero_le _)
    apply exec_run_of_segment atType ?_ (by rintro c ⟨⟩; decide) (length_pos_iff.mpr f.typed)
    · apply exec_lit_of_cased rfl atMark
      apply exec_gap f.after atAfter (fun c head => isBlank_of_isWord (wordy c head)) (Nat.zero_le _)
      exact exec_optional_of_none (exec_comment_of_wordy atRest wordy) rfl
    · intro c member
      have other : ';' ≠ c := fun same => (f.unmarked c member).1 same.symm
      simp [Single.accepts, charAccepts, fieldOptions, other]
  · have colon : ":".length = 1 := rfl
    have mark : ";".length = 1 := rfl
    refine ⟨?_, Match.named?_of_span rfl ?_ rfl here, Match.named?_of_span rfl ?_ rfl atType⟩
    · simp [RecordField.text, RecordField.declaration, colon, mark]
      omega
    · simp
    · simp [colon]

theorem matchesFrom_fields {fields : List RecordField} {pos fuel : Nat} (room : fields.length ≤ fuel)
    (here : textFrom text pos = fields.flatMap RecordField.text) :
    (recordField.matchesFrom text fuel pos false).map (fun m => (m.named "name", m.named? "type")) =
      fields.map fun f => (ofList f.name.chars, some (ofList f.type)) := by
  induction fields generalizing pos fuel with
  | nil =>
    have none : (recordField.matchesFrom text fuel pos false).length ≤ (textFrom text pos).count ';' :=
      length_matchesFrom_le (fun _ _ _ => semicolon_mem_of_matchAt) fuel pos false
    rw [here] at none
    rw [length_eq_zero_iff.mp (Nat.le_zero.mp none)]
    rfl
  | cons f fields ih =>
    obtain ⟨fuel, rfl⟩ : ∃ n, fuel = n + 1 := Nat.exists_eq_add_one.mpr (Nat.lt_of_lt_of_le (Nat.zero_lt_succ _) room)
    rw [flatMap_cons] at here
    have wordy := RecordField.fields_head fields [] (P := fun c => isWord c = true) (fun _ wordy => wordy)
      (by simp)
    rw [append_nil] at wordy
    obtain ⟨m, found, stop, name, type⟩ := exists_fieldMatch f here wordy
    have behind := textFrom_append here
    rw [← stop] at behind
    rw [matchesFrom_of_matchAt rfl found (stop_gt_of_matchAt (by decide) found), map_cons, Match.named, name, type,
      Option.getD_some, map_cons, ih (Nat.le_of_succ_le_succ room) behind]

theorem matches_fields (fields : List RecordField) :
    (recordField.matches_ (ofList (fields.flatMap RecordField.text))).map
        (fun m => (m.named "name", m.named? "type")) =
      fields.map fun f => (ofList f.name.chars, some (ofList f.type)) := by
  have room : fields.length ≤ 2 * (fields.flatMap RecordField.text).toArray.size + 2 := by
    have length := count_le_length (a := ';') (l := fields.flatMap RecordField.text)
    rw [RecordLayout.count_fields] at length
    rw [size_toArray]
    omega
  rw [matches_, toList_ofList]
  exact matchesFrom_fields room (textFrom_zero _)

end Fields

section Report

variable {rest back : List Char}

theorem collapse_record (layout : RecordLayout) (rest : List Char) :
    collapseFrom false (layout.head ++ (layout.body ++ ("end".toList ++ rest))) =
      layout.head ++ ' ' :: ((layout.fields.map RecordField.collapsed).flatMap RecordField.text ++
        ("end".toList ++ collapseFrom false rest)) := by
  have closing : Stops isBlank ("end".toList ++ rest) := by
    rintro c ⟨⟩
    decide
  have opens := RecordField.fields_head layout.fields ("end".toList ++ rest)
    (fun c wordy => isBlank_of_isWord wordy) closing
  rw [layout.collapse_head, RecordLayout.body, List.append_assoc, collapseFrom_split opens, layout.afterRecord.collapse,
    RecordField.collapse_fields _ closing, collapseFrom_word false (by decide) (by decide)]
  rfl

/-- All fields are read from the declaration in one line, or fewer than the record has. -/
theorem fields_of_record (layout : RecordLayout) (proper : layout.name.chars ≠ "record".toList)
    (rest : List Char) :
    (recordFields (collapse (ofList (layout.head ++ (layout.body ++ ("end".toList ++ rest)))))).map fieldReport =
        layout.fields.map RecordField.declared ↔
      ∀ f ∈ layout.fields, occurs startsEnd false f.declaration = false := by
  let fields := layout.fields.map RecordField.collapsed
  let behind := fields.flatMap RecordField.text ++ ("end".toList ++ collapseFrom false rest)
  have whole : collapse (ofList (layout.head ++ (layout.body ++ ("end".toList ++ rest)))) =
      ofList (layout.head ++ ' ' :: behind) := by
    rw [collapse, toList_ofList, collapse_record]
  have line : '\n' ∉ behind := by
    intro member
    have inside : '\n' ∈ (collapse (ofList (layout.head ++ (layout.body ++ ("end".toList ++ rest))))).toList := by
      rw [whole, toList_ofList]
      exact mem_append_right _ (mem_cons_of_mem _ member)
    rw [collapse, toList_ofList] at inside
    rcases mem_collapseFrom inside with space | ⟨solid, -⟩
    · exact absurd space (by decide)
    · exact absurd solid (by decide)
  have closing : startsEnd false ("end".toList ++ collapseFrom false rest) = true := by simp [startsWord]
  have opens : Stops isBlank behind :=
    RecordField.fields_head fields _ (fun c wordy => isBlank_of_isWord wordy) (by rintro c ⟨⟩; decide)
  have cut := length_cutBefore_fields_lt startsEnd_stopsAt startsEnd_solid fields closing (cons_ne_nil _ _)
  obtain ⟨m, search, group⟩ := search_body layout proper opens line cut
  have read : (recordFields (ofList (layout.head ++ ' ' :: behind))).map fieldReport =
      ((recordField.matches_ (ofList (shown behind))).map fun m => (m.named "name", m.named? "type")).map
        fun part => (part.1, part.2.map Text.trim) := by
    unfold recordFields
    simp only [search, group, List.map_map]
    rfl
  rw [whole, read]
  by_cases clear : ∀ f ∈ layout.fields, occurs startsEnd false f.declaration = false
  · have clear' : ∀ f ∈ fields, occurs startsEnd false f.declaration = false := by
      simpa [fields, RecordField.occurs_collapsed] using clear
    have all : shown behind = fields.flatMap RecordField.text := by
      rw [shown, cutBefore_fields startsEnd_stopsAt startsEnd_solid clear', cutBefore_eq_nil closing, append_nil]
    refine iff_of_true ?_ clear
    rw [all, matches_fields]
    simp only [fields, List.map_map]
    refine List.map_congr_left fun f _ => ?_
    simp [RecordField.declared, RecordField.collapsed, collapse]
  · refine iff_of_false ?_ clear
    have found : ∃ f ∈ fields, occurs startsEnd false f.declaration = true := by
      simpa [fields, RecordField.occurs_collapsed] using clear
    have fewer := count_cutBefore_fields startsEnd_stopsAt startsEnd_solid found
      ("end".toList ++ collapseFrom false rest)
    have most := length_matches_le (shown behind)
    intro same
    have length := congrArg List.length same
    simp only [fields, List.length_map] at length fewer
    exact absurd (Nat.lt_of_le_of_lt most fewer) (by omega)

/-- The fields of a record are reported exactly if none of them is taken for its end. -/
theorem record_fields_reported_iff (layout : RecordLayout) (place : LinePlace) {source : String} {back : List Char}
    (text : searched source = ofList (place.text (layout.text ++ ';' :: back)))
    (proper : ∀ word ∈ ["type", "record"], ¬Reads (ofList layout.name.chars) word.toList)
    (apart : ∀ f ∈ layout.fields, ¬Reads (ofList layout.name.chars) f.name.chars ∧
      ∀ word ∈ listWords, ¬Reads word f.name.chars)
    (alone : ∀ pos, DeclaredAt (ofList layout.name.chars) (searched source).toList.toArray pos →
      place.front.length ≤ pos ∧ pos ≤ (place.text layout.text).length) :
    ∃ d shown, lookup source (ofList layout.name.chars) 4 = .ok d ∧ d.text = some shown ∧
      ((recordFields shown).map fieldReport = layout.fields.map RecordField.declared ↔
        ∀ f ∈ layout.fields, f.Clear) := by
  rw [forall_mem_cons, forall_mem_singleton] at proper
  obtain ⟨d, tail, found, shown, free, closes⟩ := lookup_record layout place text proper.1 apart alone
  have named : layout.name.chars ≠ "record".toList := by
    intro same
    exact proper.2 (same ▸ reads_self layout.name.chars)
  refine ⟨d, _, found, shown, ?_⟩
  by_cases whole : layout.Whole
  · obtain ⟨rest, rfl⟩ := closes (RecordLayout.content_of_whole whole back)
    rw [RecordLayout.content_of_whole whole, fields_of_record layout named]
    exact ⟨fun clear f member => ⟨clear f member, whole f member⟩, fun clear f member => (clear f member).1⟩
  · refine iff_of_false ?_ fun clear => whole fun f member => (clear f member).2
    intro same
    have length := congrArg List.length same
    have most := length_recordFields_le (collapse (ofList (layout.head ++ (layout.content back ++ tail))))
    have fewer := RecordLayout.count_content whole back
    have count : (collapse (ofList (layout.head ++ (layout.content back ++ tail)))).toList.count ';' =
        (layout.content back).count ';' := by
      rw [collapse, toList_ofList, toList_ofList, count_collapseFrom (by decide), count_append,
        count_append, count_eq_zero_of_not_mem (layout.not_mem_head (by decide) (by decide)),
        count_eq_zero_of_not_mem free]
      omega
    rw [List.length_map, List.length_map] at length
    omega

end Report

theorem bit_typed : "bit".toList ≠ [] := by decide

theorem bit_opens : ∀ c, "bit".toList.head? = some c → isBlank c = false := by
  rintro c ⟨⟩
  decide

def sampleRecord : RecordLayout where
  name := ⟨"pair".toList, by decide, by decide⟩
  afterRecord := ⟨⟨"\n  ".toList, by decide⟩, by decide⟩
  fields :=
    [⟨⟨"low".toList, by decide, by decide⟩, oneSpace.toGap, oneSpace.toGap, "bit".toList, bit_typed,
        bit_opens, by decide, newLine⟩,
      ⟨⟨"high".toList, by decide, by decide⟩, noGap, newLine, "vec(1  downto\n0) ".toList, by decide,
        by rintro c ⟨⟩; decide, by decide, noGap⟩]
  nonempty := cons_ne_nil _ _
  afterEnd := oneSpace

theorem sampleRecord_searched :
    searched "x;\ntype pair is record\n  low : bit;\nhigh:\nvec(1  downto\n0) ;end record;\n" =
      ofList (samplePlace.text (sampleRecord.text ++ ';' :: ['\n'])) := by
  rw [searched, show "x;\ntype pair is record\n  low : bit;\nhigh:\nvec(1  downto\n0) ;end record;\n" =
    ofList (samplePlace.text (sampleRecord.text ++ ';' :: ['\n'])) by decide]
  rw [Source.withoutComments_plain (by decide)]
  decide

/-- The fields of a record on several lines are reported with their types in one line. -/
theorem record_fields_reported_iff_sample :
    (∀ f ∈ sampleRecord.fields, f.Clear) ∧
      ∃ d shown, lookup "x;\ntype pair is record\n  low : bit;\nhigh:\nvec(1  downto\n0) ;end record;\n" "pair" 4 = .ok d ∧
        d.text = some shown ∧
        (recordFields shown).map fieldReport = [("low", some "bit"), ("high", some "vec(1 downto 0)")] := by
  have silent : ∀ pos ≤ 72, pos < 2 ∨ 70 < pos → ∀ form ∈ formsOf "pair" 4,
      ((ofNode form.1 form.2).matchAt
        (samplePlace.text (sampleRecord.text ++ ';' :: ['\n'])).toArray pos false).isNone = true := by
    decide +kernel
  have clear : ∀ f ∈ sampleRecord.fields, f.Clear := by decide
  obtain ⟨d, shown, found, text, reported⟩ := record_fields_reported_iff sampleRecord samplePlace sampleRecord_searched
    (by decide) (by decide) fun pos => declaredAt_between sampleRecord_searched silent
  exact ⟨clear, d, shown, found, text, (reported.mpr clear).trans (by decide)⟩

/-- A field whose name begins with the letters of `end` is taken for the end of its record. -/
theorem field_named_like_end_not_reported :
    (recordFields "type t is record addr : bit; end_addr : bit; end record").map fieldReport = [("addr", some "bit")] := by
  decide +kernel

end VhdlWorkbench.Design

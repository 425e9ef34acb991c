import VhdlWorkbench.Proofs.LookupPlaces
import VhdlWorkbench.Proofs.RecordLayout

/-!
Looking up record types: the lookup gives the declaration in one line.
-/

namespace VhdlWorkbench.Design

open String (ofList toList_ofList)
open Pattern Pattern.Node Declaration List Text

variable {i : Nat}

section Marks

variable {x rest : List Char}

theorem mark_cut {c : Char} (mark : c = ';' ∨ c = ':') (unmarked : ∀ d ∈ x, d ≠ ';' ∧ d ≠ ':')
    (ahead : ColonAhead (x ++ c :: rest)) : c = ':' ∧ ∃ d ∈ x, isBlank d = false := by
  obtain ⟨y, rest', split, unmarked', solid⟩ := ahead
  have stops {d : Char} {tail : List Char} (mark : d = ';' ∨ d = ':') :
      ∀ b, (d :: tail).head? = some b → decide (b ≠ ';' ∧ b ≠ ':') = false := by
    rintro b ⟨⟩
    rcases mark with rfl | rfl <;> decide
  obtain ⟨rfl, same⟩ := cut_unique (p := fun d => decide (d ≠ ';' ∧ d ≠ ':')) split
    (fun d member => decide_eq_true (unmarked d member)) (stops mark)
    (fun d member => decide_eq_true (unmarked' d member)) (stops (Or.inr rfl))
  exact ⟨(cons.inj same).1, solid⟩

theorem not_colonAhead_of_semicolon (unmarked : ∀ d ∈ x, d ≠ ';' ∧ d ≠ ':') :
    ¬ColonAhead (x ++ ';' :: rest) := by
  intro ahead
  exact absurd (mark_cut (Or.inl rfl) unmarked ahead).1 (by decide)

theorem not_colonAhead_of_blanks (g : Gap) : ¬ColonAhead (g.chars ++ ':' :: rest) := by
  intro ahead
  obtain ⟨-, d, member, solid⟩ := mark_cut (Or.inr rfl) (fun d member => unmarked_of_blank (g.blank d member)) ahead
  rw [g.blank d member] at solid
  exact Bool.noConfusion solid

theorem field_of_colonAhead {fields : List RecordField} {g : Gap} {quiet back : List Char}
    (unmarked : ∀ c ∈ quiet, c ≠ ';' ∧ c ≠ ':')
    (inside : i ≤ (g.chars ++ (fields.flatMap RecordField.text ++ quiet)).length) (line : i = 0 ∨
      (g.chars ++ (fields.flatMap RecordField.text ++ (quiet ++ ';' :: back)))[i - 1]? = some '\n')
    (ahead : ColonAhead ((g.chars ++ (fields.flatMap RecordField.text ++ (quiet ++ ';' :: back))).drop i)) :
    ∃ f ∈ fields, ∃ (g' : Gap) (rest : List Char),
      (g.chars ++ (fields.flatMap RecordField.text ++ (quiet ++ ';' :: back))).drop i =
        g'.chars ++ (f.name.chars ++ (f.afterName.chars ++ ':' :: rest)) := by
  induction fields generalizing g i with
  | nil =>
    rw [flatMap_nil, nil_append] at inside ahead
    rw [← append_assoc, drop_append_of_le_length inside] at ahead
    refine absurd ahead (not_colonAhead_of_semicolon ?_)
    intro c member
    rcases mem_append.mp (mem_of_mem_drop member) with blank | other
    · exact unmarked_of_blank (g.blank c blank)
    · exact unmarked c other
  | cons f fields ih =>
    let later := f.after.chars ++ (fields.flatMap RecordField.text ++ (quiet ++ ';' :: back))
    have whole : g.chars ++ ((f :: fields).flatMap RecordField.text ++ (quiet ++ ';' :: back)) =
        g.chars ++ (f.name.chars ++ (f.afterName.chars ++ ':' :: ((f.afterColon.chars ++ f.type) ++ ';' :: later))) := by
      simp [RecordField.text, RecordField.declaration, later]
    rw [whole] at line ahead ⊢
    by_cases lead : i ≤ g.chars.length
    · exact ⟨f, mem_cons_self, ⟨g.chars.drop i, fun c member => g.blank c (mem_of_mem_drop member)⟩,
        (f.afterColon.chars ++ f.type) ++ ';' :: later, drop_append_of_le_length lead⟩
    obtain ⟨j, rfl⟩ := Nat.exists_eq_add_of_le (Nat.le_of_not_le lead)
    rw [drop_length_add_append] at ahead ⊢
    have before : (f.name.chars ++ (f.afterName.chars ++ ':' :: ((f.afterColon.chars ++ f.type) ++ ';' :: later)))[j - 1]? =
        some '\n' := by
      have feed := line.resolve_left (by omega)
      rwa [getElem?_append_right (by omega), show g.chars.length + j - 1 - g.chars.length = j - 1 by omega] at feed
    by_cases word : j ≤ f.name.chars.length
    · -- no line begins inside a name or directly behind it
      rw [getElem?_append_left (by omega)] at before
      exact absurd (mem_of_getElem? before) (f.name.not_mem (by decide))
    obtain ⟨j, rfl⟩ := Nat.exists_eq_add_of_le (Nat.le_of_not_le word)
    rw [drop_length_add_append] at ahead ⊢
    by_cases blanks : j ≤ f.afterName.chars.length
    · rw [drop_append_of_le_length blanks] at ahead
      exact absurd ahead (not_colonAhead_of_blanks
        ⟨f.afterName.chars.drop j, fun c member => f.afterName.blank c (mem_of_mem_drop member)⟩)
    obtain ⟨j, rfl⟩ := Nat.exists_eq_add_of_lt (Nat.lt_of_not_le blanks)
    rw [Nat.add_assoc, drop_length_add_append, drop_succ_cons] at ahead ⊢
    by_cases type : j ≤ (f.afterColon.chars ++ f.type).length
    · rw [drop_append_of_le_length type] at ahead
      refine absurd ahead (not_colonAhead_of_semicolon ?_)
      intro c member
      rcases mem_append.mp (mem_of_mem_drop member) with blank | letter
      · exact unmarked_of_blank (f.afterColon.blank c blank)
      · exact f.unmarked c letter
    obtain ⟨j, rfl⟩ := Nat.exists_eq_add_of_lt (Nat.lt_of_not_le type)
    rw [Nat.add_assoc, drop_length_add_append, drop_succ_cons] at ahead ⊢
    -- the place is behind the field: what follows is a record with one field less
    have inside' : j ≤ (f.after.chars ++ (fields.flatMap RecordField.text ++ quiet)).length := by
      simp only [length_append, flatMap_cons, RecordField.text, RecordField.declaration,
        length_cons] at inside ⊢
      omega
    have line' : j = 0 ∨ later[j - 1]? = some '\n' := by
      by_cases zero : j = 0
      · exact Or.inl zero
      · right
        rw [getElem?_append_right (by omega), getElem?_append_right (by omega),
          getElem?_cons, if_neg (by omega), getElem?_append_right (by omega), getElem?_cons,
          if_neg (by omega)] at before
        rw [← before]
        congr 1
        omega
    obtain ⟨f', member, found⟩ := ih inside' line' ahead
    exact ⟨f', mem_cons_of_mem f member, found⟩

end Marks

section Run

variable {text : Array Char} {t t' r : Thread} {k : Continuation}

def endNode : Node :=
  lit "end" ++ gap1 ++ lit "record"

theorem opensEnd_of_reaches (reached : Reaches text endNode blockOptions t t') :
    opensEnd (textFrom text t.pos) = true := by
  obtain ⟨_, ⟨_, first, blanks⟩, second⟩ := reached
  obtain ⟨w, reads, here, rfl⟩ := reaches_word first
  obtain ⟨g, atGap, enough, rfl⟩ := reaches_gap blanks
  obtain ⟨w', reads', behind, -⟩ := reaches_word second
  refine opensEnd_iff.mpr ⟨⟨w, reads, ⟨g, length_pos_iff.mp enough⟩, w', reads'⟩, textFrom text t'.pos, ?_⟩
  rw [here, atGap, behind, EndMark.chars, append_assoc, append_assoc]

theorem exec_end_of_not {pos : Nat} {cs : List Char} (here : textFrom text pos = cs)
    (place : t.pos = pos + i) (closed : opensEnd (cs.drop i) = false) : exec text endNode blockOptions t k = none := by
  cases success : exec text endNode blockOptions t k with
  | none => rfl
  | some _ =>
    obtain ⟨_, reached, -⟩ := exec_reaches _ _ _ _ _ success
    have opens := opensEnd_of_reaches reached
    rw [place, textFrom_add, here, closed] at opens
    exact Bool.noConfusion opens

theorem exec_end (e : EndMark) {rest : List Char} (here : textFrom text t.pos = e.chars ++ rest)
    (next : k { t with pos := t.pos + e.chars.length } = some r) : exec text endNode blockOptions t k = some r := by
  rw [EndMark.chars, append_assoc, append_assoc] at here
  have atGap := textFrom_append here
  have atWord := textFrom_append atGap
  simp only [endNode, exec_seq]
  refine exec_lit_of_forall₂ here e.isEnd ?_
  refine exec_gap e.between.toGap atGap (e.second.blankless_head rest)
    (length_pos_iff.mpr e.between.nonempty) ?_
  refine exec_lit_of_forall₂ atWord e.isRecord ?_
  simpa only [EndMark.chars, length_append, Nat.add_assoc] using next

def recordNode (name : String) : Node :=
  start ++ gap ++ .capture 1 (some "tag") (lit "type") ++ blank ++
    .capture 2 (some "name") (gap ++ .pasted name ++ gap) ++ blank ++ lit "is" ++ gap1 ++
    .capture 3 (some "type") (lit "record") ++ edge ++ .capture 4 (some "content") (.run .any 1 none .lazy) ++
    .capture 5 none endNode

/-- What the match of a record is read as: its declaration in one line, up to the end that was found. -/
def RecordFound (layout : RecordLayout) (back : List Char) (m : Match) : Prop :=
  ∃ d tail, ofMatch (ofList layout.name.chars) m = .ok [d] ∧
    d.text = some (collapse (ofList (layout.head ++ (layout.content back ++ tail)))) ∧ ';' ∉ tail ∧
    (layout.content back = layout.body → "end".toList <+: tail)

section Match

variable {pos : Nat} (layout : RecordLayout) (g : Gap) (e : EndMark) {content rest : List Char}

theorem exists_recordMatch (nonempty : content ≠ [])
    (here : textFrom text pos = g.chars ++ (layout.head ++ (content ++ (e.chars ++ rest))))
    (spaced : Stops isWord content)
    (early : ∀ i < content.length, opensEnd ((content ++ (e.chars ++ rest)).drop i) = false)
    (line : LineStart text pos) :
    ∃ m, (Regex.ofNode blockOptions (recordForm (nameAlone (ofList layout.name.chars)))).matchAt text pos
      false = some m ∧ m.text = ofList (g.chars ++ (layout.head ++ (content ++ e.chars))) ∧ m.named? "dir" = none ∧
      m.hasName "value" = false ∧ m.named? "tag" = some (ofList "type".toList) ∧
      m.named? "name" = some (ofList layout.name.chars) ∧ m.named? "type" = some (ofList "record".toList) := by
  have spaced' : Stops isWord (content ++ (e.chars ++ rest)) := by
    intro c head
    rw [head?_append_of_ne_nil _ nonempty] at head
    exact spaced c head
  have inside := lt_size_of_textFrom here (by simp [RecordLayout.head])
  have whole : textFrom text pos = (g.chars ++ (layout.head ++ (content ++ e.chars))) ++ rest := by
    rw [here]
    simp only [append_assoc]
  rw [RecordLayout.head_append] at here
  have atWord := textFrom_append here
  have behindWord := textFrom_append atWord
  have atName := textFrom_cons behindWord
  have behindName := textFrom_append atName
  have atIs := textFrom_append behindName
  have behindIs := textFrom_append atIs
  have atRecord := textFrom_append behindIs
  have atContent := textFrom_append atRecord
  have atEnd := textFrom_append atContent
  apply Exists.intro
  apply And.intro
  · apply Regex.matchAt_of_exec rfl (Nat.le_of_lt inside)
    change exec text (recordNode (ofList layout.name.chars)) blockOptions ⟨pos, Array.replicate 6 none⟩ some = _
    simp only [recordNode, exec_seq, exec_capture]
    rw [start, exec_anchor_of_holds ((lineStart_holds_iff rfl pos).mpr line)]
    apply exec_gap g here (by rintro c ⟨⟩; decide) (Nat.zero_le _)
    apply exec_keyword ⟨"type".toList, by decide⟩ (by decide) atWord
    apply exec_blank behindWord (by decide)
    apply exec_gap noGap atName (layout.name.blankless_head _) (Nat.zero_le _)
    apply exec_pasted (reads_self _) atName
    -- the blank behind the name is taken first and then given back
    apply exec_run_of_late (i := 0) behindName (by decide) (by rintro c ⟨⟩; decide) (Nat.zero_le _) (Nat.zero_le _)
    · intro j after before
      obtain rfl : j = 1 := Nat.le_antisymm before after
      exact exec_blank_of_solid atIs (by decide)
    apply exec_blank behindName (by decide)
    apply exec_keyword ⟨"is".toList, by decide⟩ (by decide) atIs
    apply exec_gap oneSpace.toGap behindIs (by rintro c ⟨⟩; decide) (by decide)
    apply exec_keyword ⟨"record".toList, by decide⟩ (by decide) atRecord
    rw [exec_edge ⟨"record".toList, by decide, by decide⟩ atRecord spaced' rfl]
    apply exec_lazy_of_segment atContent (fun _ _ => rfl) (length_pos_iff.mpr nonempty)
    · intro i _ before
      exact exec_end_of_not atContent rfl (early i before)
    exact exec_end e atEnd rfl
  · refine ⟨Match.text_of_stop ?_ whole, rfl, rfl, Match.named?_of_span rfl ?_ rfl atWord,
      Match.named?_of_span rfl ?_ rfl atName, Match.named?_of_span rfl ?_ rfl atRecord⟩
    · simp [RecordLayout.head, noGap, oneSpace]
      omega
    all_goals simp [noGap, oneSpace]

theorem trim_declaration : trim (ofList (g.chars ++ (layout.head ++ (content ++ e.chars)))) =
      ofList (layout.head ++ (content ++ e.chars)) := by
  have closes : ∀ c, (layout.head ++ (content ++ e.chars)).getLast? = some c → isBlank c = false := by
    intro c last
    rw [← append_assoc, getLast?_append_of_ne_nil _ e.nonempty] at last
    exact e.closes c last
  have trimmed := trim_blanks g.blank (show layout.head ++ (content ++ e.chars) ≠ [] from cons_ne_nil _ _)
    (by rintro c ⟨⟩; decide) closes (forall_mem_nil fun c => isBlank c = true)
  rwa [append_nil] at trimmed

end Match

theorem exists_recordFound {pos : Nat} {back : List Char} (layout : RecordLayout) (g : Gap)
    (here : textFrom text pos = g.chars ++ (layout.text ++ ';' :: back)) (line : LineStart text pos) :
    ∃ m, (Regex.ofNode blockOptions (recordForm (nameAlone (ofList layout.name.chars)))).matchAt text pos
      false = some m ∧ RecordFound layout back m := by
  obtain ⟨e, rest, split⟩ := layout.content_split back
  rw [RecordLayout.text, append_assoc, append_assoc, split] at here
  obtain ⟨b, more, content, blank⟩ : ∃ b more, layout.content back = b :: more ∧ isBlank b = true := by
    obtain ⟨b, blanks, spaces⟩ := exists_cons_of_ne_nil layout.afterRecord.nonempty
    exact ⟨b, _, by rw [layout.content_eq, spaces]; rfl, layout.afterRecord.blank b (by simp [spaces])⟩
  have spaced : Stops isWord (layout.content back) := by
    rw [content]
    rintro c ⟨⟩
    exact isWord_of_isBlank blank
  have early : ∀ i < (layout.content back).length,
      opensEnd ((layout.content back ++ (e.chars ++ rest)).drop i) = false := by
    intro i before
    rw [← split]
    exact cutBefore_early before
  obtain ⟨m, found, declaration, undirected, unvalued, tag, name, type⟩ :=
    exists_recordMatch layout g e (by simp [content]) here spaced early line
  refine ⟨m, found, _, e.chars, ofMatch_of_parts layout.name undirected unvalued tag type name (by decide) (by decide)
    (by decide) (by decide), ?_, e.free, ?_⟩
  · rw [declaration, trim_declaration, replaceFirst_self]
  · intro whole
    rw [whole, append_cancel_left_eq, RecordLayout.closing, EndMark.chars, append_assoc,
      append_assoc, append_assoc] at split
    have word : "end".toList = e.word := append_inj_left split e.isEnd.length_eq.symm
    exact ⟨_, by rw [word]; rfl⟩

end Run

section Lookup

variable (layout : RecordLayout) (place : LinePlace) {back : List Char} {pos : Nat} {form : Node} {m : Match}

theorem formsOf_eq (name : String) : formsOf name 4 = (objectForms name).map (lineOptions, ·) ++
      (blockOptions, recordForm (nameAlone name)) ::
        [(lineOptions, aliasForm (.pasted name)), (lineOptions, externalAliasForm (.pasted name))] :=
  rfl

/-- The name of a record is not declared as an object at the blanks before the record. -/
theorem no_object_before {text : Array Char} {g : Gap} {rest : List Char}
    (proper : ¬Reads (ofList layout.name.chars) "type".toList)
    (here : textFrom text pos = g.chars ++ (layout.head ++ rest))
    (listed : form ∈ objectForms (ofList layout.name.chars)) :
    (Regex.ofNode lineOptions form).matchAt text pos false ≠ some m := by
  intro found
  rw [RecordLayout.head_append] at here
  rcases word_of_object (w := ⟨"type".toList, by decide, by decide⟩) listed found here (by rintro c ⟨⟩; decide) with
    same | ⟨word, member, reads⟩
  · exact proper same
  · revert word
    decide

theorem no_object_inside (apart : ∀ f ∈ layout.fields, ¬Reads (ofList layout.name.chars) f.name.chars ∧
      ∀ word ∈ listWords, ¬Reads word f.name.chars) (listed : form ∈ objectForms (ofList layout.name.chars))
    (inside : i ≤ (layout.body ++ layout.closing).length) {text : Array Char}
    (here : textFrom text pos = layout.body ++ (layout.closing ++ ';' :: back)) (line : LineStart text (pos + i))
    (positive : 0 < i) : (Regex.ofNode lineOptions form).matchAt text (pos + i) false ≠ some m := by
  intro found
  rw [RecordLayout.body, append_assoc] at here inside
  have ahead := colonAhead_of_object listed found
  rw [textFrom_add, here] at ahead
  have feed : i = 0 ∨ (layout.afterRecord.chars ++ (layout.fields.flatMap RecordField.text ++
      (layout.closing ++ ';' :: back)))[i - 1]? = some '\n' := by
    right
    rw [← getElem?_of_textFrom here, show pos + (i - 1) = pos + i - 1 by omega]
    exact line.resolve_left (by omega)
  obtain ⟨f, member, g, rest, opens⟩ := field_of_colonAhead layout.closing_unmarked inside feed ahead
  have atName : textFrom text (pos + i) = g.chars ++ (f.name.chars ++ (f.afterName.chars ++ ':' :: rest)) := by
    rw [textFrom_add, here, opens]
  have stops : ∀ c, (f.afterName.chars ++ ':' :: rest).head? = some c → endsWord c = true := by
    apply f.afterName.ends_head
    rintro c ⟨⟩
    decide
  rcases word_of_object listed found atName stops with same | ⟨word, listed, reads⟩
  · exact (apart f member).1 same
  · exact (apart f member).2 word listed reads

variable {source : String}
  (text : searched source = ofList (place.text (layout.text ++ ';' :: back)))
  (proper : ¬Reads (ofList layout.name.chars) "type".toList)
  (apart : ∀ f ∈ layout.fields, ¬Reads (ofList layout.name.chars) f.name.chars ∧
    ∀ word ∈ listWords, ¬Reads word f.name.chars)
  (alone : ∀ pos, DeclaredAt (ofList layout.name.chars) (searched source).toList.toArray pos →
    place.front.length ≤ pos ∧ pos ≤ (place.text layout.text).length)
include text proper apart alone

theorem no_object_found : ∀ form ∈ (objectForms (ofList layout.name.chars)).map (lineOptions, ·),
      (Regex.ofNode form.1 form.2).search? (searched source) = none := by
  have chars : (searched source).toList = place.text (layout.text ++ ';' :: back) := by
    rw [text, toList_ofList]
  have split : layout.text ++ ';' :: back =
      layout.head ++ (layout.body ++ (layout.closing ++ ';' :: back)) := by
    simp only [RecordLayout.text, append_assoc]
  intro form listed
  obtain ⟨node, member, rfl⟩ := mem_map.mp listed
  refine Regex.search?_eq_none rfl fun pos => ?_
  cases found : (Regex.ofNode lineOptions node).matchAt (searched source).toList.toArray pos false with
  | none => rfl
  | some m =>
    have declared : DeclaredAt (ofList layout.name.chars) (searched source).toList.toArray pos :=
      ⟨_, by rw [formsOf_eq]; exact mem_append_left _ listed, m, found⟩
    obtain ⟨low, high⟩ := alone pos declared
    obtain ⟨i, rfl⟩ := Nat.exists_eq_add_of_le low
    have line := lineStart_of_declaredAt declared
    rw [chars] at found line
    by_cases lead : i ≤ place.lead.chars.length
    · have here := place.textFrom_lead (layout.text ++ ';' :: back) lead
      rw [split] at here found
      exact absurd found (no_object_before layout proper here member)
    · -- the head has one line, so that the place is behind it
      have behind : ¬place.front.length + i ≤ (place.text layout.head).length := by
        intro inside
        rw [split] at line
        exact lead (place.lead_of_lineStart (layout.not_mem_head (by decide) (by decide)) inside line)
      obtain ⟨j, place'⟩ := Nat.exists_eq_add_of_lt (Nat.lt_of_not_le behind)
      have here : textFrom (place.text (layout.text ++ ';' :: back)).toArray (place.text layout.head).length =
          layout.body ++ (layout.closing ++ ';' :: back) := by
        simp [textFrom, LinePlace.text, split]
      rw [place', Nat.add_assoc] at found line
      refine absurd found (no_object_inside layout apart member ?_ here line (Nat.zero_lt_succ j))
      simp only [LinePlace.text, RecordLayout.text, length_append] at high place' ⊢
      omega

/-- A record whose name is not declared elsewhere is found with the text of its declaration in one line. -/
theorem lookup_record : ∃ d tail, lookup source (ofList layout.name.chars) 4 = .ok d ∧
      d.text = some (collapse (ofList (layout.head ++ (layout.content back ++ tail)))) ∧ ';' ∉ tail ∧
      (layout.content back = layout.body → "end".toList <+: tail) := by
  have chars : (searched source).toList = place.text (layout.text ++ ';' :: back) := by
    rw [text, toList_ofList]
  obtain ⟨i, before, line⟩ := place.exists_lineStart (layout.text ++ ';' :: back)
  obtain ⟨_, there, -⟩ := exists_recordFound layout (place.leadFrom i) (place.textFrom_lead _ before) line
  have each : ∀ j ≤ place.front.length + i, ∀ m,
      (Regex.ofNode blockOptions (recordForm (nameAlone (ofList layout.name.chars)))).matchAt
        (searched source).toList.toArray j false = some m → RecordFound layout back m := by
    intro j early m matched
    have declared : DeclaredAt (ofList layout.name.chars) (searched source).toList.toArray j :=
      ⟨_, by rw [formsOf_eq]; exact mem_append_right _ mem_cons_self, m, matched⟩
    obtain ⟨n, rfl⟩ := Nat.exists_eq_add_of_le (alone j declared).1
    have here := place.textFrom_lead (layout.text ++ ';' :: back) (i := n) (by omega)
    rw [← chars] at here
    obtain ⟨m', same, known⟩ := exists_recordFound layout (place.leadFrom n) here (lineStart_of_declaredAt declared)
    obtain rfl := Option.some.inj (matched.symm.trans same)
    exact known
  rw [← chars] at there
  obtain ⟨m, found, d, tail, read, known⟩ := Regex.search?_of_matchAt rfl each there
  have objects := no_object_found layout place text proper apart alone
  exact ⟨d, tail, lookup_of_form layout.name _ (formsOf_eq _) objects found read, known⟩

end Lookup

end VhdlWorkbench.Design

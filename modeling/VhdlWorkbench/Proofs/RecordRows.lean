import VhdlWorkbench.Layout.Record
import VhdlWorkbench.Proofs.Captures
import VhdlWorkbench.Proofs.KeptRows
import VhdlWorkbench.Proofs.Outcomes

/-!
Record types that are laid out keep the characters of their code.
-/

namespace VhdlWorkbench.Source

open Text List String Option

section Behind

variable {cs back : List Char} (plain : ∀ c ∈ back, isPlain c = true)

theorem block?_of_plain (plain : ∀ c ∈ cs, isPlain c = true) : block? cs = none := by
  fun_induction block? cs with
  | case1 => rfl
  | case2 rest => exact absurd (plain '/' (by simp)) (by decide)
  | case3 c rest _ ih => rw [ih fun d member => plain d (mem_cons_of_mem c member), map_none]

theorem literal?_of_plain (plain : ∀ c ∈ cs, isPlain c = true) : literal? '"' cs = none := by
  rw [eq_none_iff_forall_ne_some]
  rintro ⟨body, after⟩ found
  obtain ⟨inner, rfl⟩ := exists_quote_of_literal? found
  exact absurd (plain '"' (by rw [literal?_append found]; simp)) (by decide)

include plain

theorem block?_behind (cs : List Char) :
    block? (cs ++ back) = (block? cs).map fun found => (found.1, found.2 ++ back) := by
  fun_induction block? cs with
  | case1 => rw [nil_append, block?_of_plain plain, map_none]
  | case2 rest => rfl
  | case3 c rest apart ih =>
    rw [cons_append, block?, ih, Option.map_map, Option.map_map]
    · rfl
    · rintro after rfl slash
      cases rest with
      | nil => exact absurd (plain '/' (by simp [show back = '/' :: after from slash])) (by decide)
      | cons d rest =>
        obtain rfl : d = '/' := (cons.inj slash).1
        exact apart rest rfl rfl

theorem literal?_behind (cs : List Char) :
    literal? '"' (cs ++ back) = (literal? '"' cs).map fun found => (found.1, found.2 ++ back) := by
  fun_induction literal? '"' cs with
  | case1 => rw [nil_append, literal?_of_plain plain, map_none]
  | case2 c rest ih =>
    rw [cons_append, cons_append, literal?, ih, Option.map_map, Option.map_map]
    rfl
  | case3 c rest _ ends =>
    obtain rfl := eq_of_beq ends
    rfl
  | case4 c rest apart _ escape =>
    obtain rfl := eq_of_beq escape
    cases rest with
    | cons d rest => exact absurd rfl (apart d rest rfl)
    | nil =>
      cases back with
      | nil => rfl
      | cons d back =>
        rw [singleton_append, literal?, literal?_of_plain fun e member => plain e (mem_cons_of_mem d member)]
        rfl
  | case5 c rest _ inner unescaped ih =>
    have step (rest : List Char) :
        literal? '"' (c :: rest) = (literal? '"' rest).map fun found => (c :: found.1, found.2) := by
      rw [literal?, if_neg inner, if_neg unescaped]
      rintro d after rfl
      exact absurd rfl unescaped
    rw [cons_append, step, ih, Option.map_map, Option.map_map]
    rfl

theorem blankComments_behind (cs : List Char) :
    blankComments (cs ++ '\n' :: back) = blankComments cs ++ '\n' :: back := by
  have plain' : ∀ c ∈ '\n' :: back, isPlain c = true := forall_mem_cons.mpr ⟨by decide, plain⟩
  fun_induction blankComments cs with
  | case1 =>
    have kept := blankComments_plain plain' []
    rwa [append_nil, blankComments, append_nil] at kept
  | case2 rest ih =>
    have line : (rest ++ '\n' :: back).dropWhile (· != '\n') = rest.dropWhile (· != '\n') ++ '\n' :: back := by
      rw [dropWhile_append]
      split
      · next none => rw [isEmpty_iff.mp none]; rfl
      · rfl
    rw [cons_append, cons_append, blankComments, line, ih, cons_append]
  | case3 rest body after found ih =>
    have longer := block?_behind plain' rest
    rw [found] at longer
    rw [cons_append, cons_append, blankComments]
    split
    · next body' after' found' =>
      obtain ⟨rfl, rfl⟩ := Prod.mk.inj (Option.some.inj (found'.symm.trans longer))
      rw [ih, cons_append]
    · next open_ => exact absurd (open_.symm.trans longer) (by simp)
  | case4 rest open_ ih =>
    have longer := block?_behind plain' rest
    rw [open_] at longer
    rw [cons_append, cons_append, blankComments]
    split
    · next found => exact absurd (found.symm.trans longer) (by simp)
    · rw [← cons_append, ih, cons_append]
  | case5 rest body after found ih =>
    have longer := literal?_behind plain' rest
    rw [found] at longer
    rw [cons_append, blankComments]
    split
    · next body' after' found' =>
      obtain ⟨rfl, rfl⟩ := Prod.mk.inj (Option.some.inj (found'.symm.trans longer))
      simp only [ih, List.cons_append, List.append_assoc]
    · next open_ => exact absurd (open_.symm.trans longer) (by simp)
  | case6 rest open_ ih =>
    have longer := literal?_behind plain' rest
    rw [open_] at longer
    rw [cons_append, blankComments]
    split
    · next found => exact absurd (found.symm.trans longer) (by simp)
    · rw [ih, cons_append]
  | case7 c rest dash slash quote ih =>
    rw [cons_append, blankComments_cons ?_ ?_ quote, ih, cons_append]
    · rintro rfl head
      cases rest with
      | nil => exact absurd (Option.some.inj head) (by decide)
      | cons d rest => exact dash rest rfl (congrArg (· :: rest) (Option.some.inj head))
    · rintro rfl head
      cases rest with
      | nil => exact absurd (Option.some.inj head) (by decide)
      | cons d rest => exact slash rest rfl (congrArg (· :: rest) (Option.some.inj head))

end Behind

end VhdlWorkbench.Source

namespace VhdlWorkbench.Layout

open Pattern Pattern.Node Text Source Design List

/-- A field of a record, with the comment behind it. -/
structure FieldText where
  lead : Spaces
  name : Identifier
  beforeColon : Spaces
  afterColon : Spaces
  type : List Char
  visible : '\n' ∉ type
  behindEnd : Spaces
  comment : Option (List Char)

namespace FieldText

def head (d : FieldText) : List Char :=
  d.lead.1 ++ (d.name.chars ++ (d.beforeColon.1 ++ ':' :: (d.afterColon.1 ++ d.type)))

def text (d : FieldText) : List Char :=
  d.head ++ ';' :: (d.behindEnd.1 ++ written d.comment)

/-- The parts of a match are those of the field. -/
structure ReadBy (m : Match) (d : FieldText) : Prop where
  name : m.named "name" = String.ofList d.name.chars
  type : m.named "type" = String.ofList d.type
  comment : m.named? "comment" = d.comment.map String.ofList

end FieldText

def fieldCommentNode : Node :=
  Node.optional (.group (spacing ++ lit "--" ++ .capture 3 (some "comment") (many commentChar)))

def fieldNode : Node :=
  start ++ spacing ++ .capture 1 (some "name") identifier ++ spacing ++ lit ":" ++ spacing ++
    .capture 2 (some "type") (.run (.set true [.char ';']) 1 none .lazy) ++ lit ";" ++ fieldCommentNode

theorem fieldRegex_eq : Regex.ofNode oneRow fieldRow =
    { node := fieldNode, options := oneRow, slots := 4, names := [("name", 1), ("type", 2), ("comment", 3)] } :=
  rfl

section Fields

variable {text : Array Char} {t t' : Thread} {line : List Char} {m : Match} {d : FieldText}

theorem reaches_fieldComment (room : 3 < t.spans.size) (unset : t.spans[3]? = some none)
    (reached : Reaches text fieldCommentNode oneRow t t') :
    ∃ (gap : Spaces) (comment : Option (List Char)),
      textFrom text t.pos = gap.1 ++ (written comment ++ textFrom text t'.pos) ∧
        (t'.spans[3]?).join.map (fun span => segment text span.1 span.2) = comment := by
  rcases reaches_optional reached with rfl | written
  · exact ⟨⟨[], inLine_nil⟩, none, rfl, by rw [unset]; rfl⟩
  · obtain ⟨_, toDashes, capture⟩ := reaches_seq written
    obtain ⟨_, blanks, dashes⟩ := reaches_seq toDashes
    obtain ⟨gap, atGap, rfl⟩ := reaches_spacing blanks
    obtain ⟨body, here, got⟩ := reaches_comment dashes capture room
    exact ⟨gap, some body, atGap.trans (congrArg _ here), got⟩

theorem reaches_field {cs : List Char} (single : '\n' ∉ cs)
    (reached : Reaches cs.toArray fieldNode oneRow ⟨0, Array.replicate 4 none⟩ t) :
    ∃ d : FieldText, d.text ++ cs.drop t.pos = cs ∧
      d.ReadBy ⟨cs.toArray, 0, t.pos, t.spans, (Regex.ofNode oneRow fieldRow).names⟩ := by
  simp only [fieldNode] at reached
  obtain ⟨_, toEnd, comment⟩ := reaches_seq reached
  obtain ⟨_, toType, semicolon⟩ := reaches_seq toEnd
  obtain ⟨atSemicolon, rfl⟩ := reaches_mark (c := ';') rfl (by decide) semicolon
  obtain ⟨_, toBehind, _, typed, rfl⟩ := reaches_seq toType
  obtain ⟨type, atType, -, -, -, rfl⟩ := reaches_run typed
  obtain ⟨_, toColon, blanks⟩ := reaches_seq toBehind
  obtain ⟨afterColon, atBehind, rfl⟩ := reaches_spacing blanks
  obtain ⟨_, toBefore, colon⟩ := reaches_seq toColon
  obtain ⟨atColon, rfl⟩ := reaches_mark (c := ':') rfl (by decide) colon
  obtain ⟨_, toName, blanks'⟩ := reaches_seq toBefore
  obtain ⟨beforeColon, atBefore, rfl⟩ := reaches_spacing blanks'
  obtain ⟨_, toLead, _, named, rfl⟩ := reaches_seq toName
  obtain ⟨name, atName, rfl⟩ := reaches_identifier named
  obtain ⟨_, ⟨-, rfl⟩, first⟩ := reaches_seq toLead
  obtain ⟨lead, atLead, rfl⟩ := reaches_spacing first
  obtain ⟨behindEnd, body, atEnd, gotBody⟩ := reaches_fieldComment (by simp) (by simp) comment
  have nameKept : t.spans[1]? = _ := span_kept comment rfl (by decide) rfl
  have typeKept : t.spans[2]? = _ := span_kept comment rfl (by decide) rfl
  dsimp only at *
  have written : textFrom cs.toArray 0 = lead.1 ++ (name.chars ++ (beforeColon.1 ++ ':' :: (afterColon.1 ++ (type ++
      ';' :: (behindEnd.1 ++ (written body ++ textFrom cs.toArray t.pos)))))) := by
    rw [atLead, atName, atBefore, atColon, atBehind, atType, atSemicolon, atEnd]
  have visible : '\n' ∉ type := by
    intro member
    rw [textFrom_zero] at written
    exact single (by rw [written]; simp [member])
  refine ⟨⟨lead, name, beforeColon, afterColon, type, visible, behindEnd, body⟩, ?_, ?_, ?_, ?_⟩
  · rw [textFrom_zero] at written
    conv_rhs => rw [written]
    simp [FieldText.text, FieldText.head, textFrom]
  · exact named_of_span 0 rfl (nameKept.trans (by simp)) rfl atName
  · exact named_of_span 1 rfl (typeKept.trans (by simp)) rfl atType
  · have comment := congrArg (Option.map String.ofList) gotBody
    rw [Option.map_map] at comment
    rw [named?_eq rfl]
    exact comment

theorem exists_fieldText (single : '\n' ∉ line)
    (found : (Regex.ofNode oneRow fieldRow).matchStart? (String.ofList line) = some m) :
    ∃ d : FieldText, d.text ++ line.drop m.stop = line ∧ d.ReadBy m := by
  rw [Regex.matchStart?, String.toList_ofList, fieldRegex_eq] at found
  obtain ⟨t, whole, rfl⟩ := Regex.matchAt_reaches found
  exact reaches_field single whole

def fieldColumns (level : Int) (nameWidth typeWidth : Nat) (m : Match) : String :=
  tabs (level + 1) ++ padRight nameWidth (m.named "name") ++ " : " ++ padRight typeWidth (m.named "type")

theorem marks_fieldColumns (level : Int) (nameWidth typeWidth : Nat) (reading : d.ReadBy m) (cs : List Char) :
    marks feeds ((fieldColumns level nameWidth typeWidth m).toList ++ ';' :: cs) = marks feeds (d.head ++ ';' :: cs) := by
  obtain ⟨front, c, form, solid⟩ := exists_last d.name
  obtain ⟨pad, padding, padded⟩ := exists_pad nameWidth d.name.chars
  obtain ⟨pad', padding', padded'⟩ := exists_pad typeWidth d.type
  have ends : Alike (pad' ++ ';' :: cs) ([] ++ ';' :: cs) := Alike.alone (by decide) (by decide) padding' inLine_nil rfl
  have type : marksFrom feeds ':' [] ([' '] ++ (d.type ++ _)) = _ :=
    (Alike.text d.visible ends).spaced (by decide) inLine_space d.afterColon.2
  have colon : Alike ((pad ++ [' ']) ++ ':' :: _) _ :=
    Alike.alone (by decide) (by decide) (padding.append inLine_space) d.beforeColon.2 type
  have row : (fieldColumns level nameWidth typeWidth m).toList ++ ';' :: cs = (tabs (level + 1)).toList ++
      (front ++ c :: ((pad ++ [' ']) ++ ':' :: ([' '] ++ (d.type ++ (pad' ++ ';' :: cs))))) := by
    rw [fieldColumns, reading.name, reading.type]
    simp only [String.toList_append, toList_padRight, String.toList_ofList, padded, padded']
    simp [form]
  have line : d.head ++ ';' :: cs =
      d.lead.1 ++ (front ++ c :: (d.beforeColon.1 ++ ':' :: (d.afterColon.1 ++ (d.type ++ ([] ++ ';' :: cs))))) := by
    simp [FieldText.head, form]
  rw [row, line, marks_lead feeds_of_mem (isBlank_of_mem_tabs (level + 1)), marks_lead feeds_of_mem d.lead.2.blank]
  exact marksFrom_keep solid front (colon c [] inLine_nil)

/-- A field keeps its marks if only blanks stand behind it, or it loses an empty comment. -/
theorem marks_renderField (level : Int) (nameWidth typeWidth : Nat) (single : '\n' ∉ line)
    (found : (Regex.ofNode oneRow fieldRow).matchStart? (String.ofList line) = some m)
    (blank : ∀ c ∈ line.drop m.stop, isBlank c = true) :
    marks feeds (renderField level nameWidth typeWidth m).toList = marks feeds line ∨
      m.named? "comment" = some "" ∧ Bared line (renderField level nameWidth typeWidth m).toList := by
  obtain ⟨d, whole, reading⟩ := exists_fieldText single found
  rw [← whole, marks, marks, marksFrom_trail blank]
  exact (marks_columns reading.comment d.behindEnd.2 (marks_fieldColumns level nameWidth typeWidth reading)).imp_right
    fun lost => ⟨lost.1, lost.2.trail blank⟩

theorem text_commentLine (single : '\n' ∉ line) (found : commentLine.matchStart? (String.ofList line) = some m) :
    m.text = String.ofList line := by
  rw [Regex.matchStart?, String.toList_ofList] at found
  obtain ⟨t, whole, rfl⟩ := Regex.matchAt_reaches found
  obtain ⟨_, -, v, ends, rfl⟩ := whole
  rcases ends with feed | ⟨ends, rfl⟩
  · obtain ⟨d, there, accepted⟩ := accepts_of_reaches_lit feed (show "\n".toList.head? = some '\n' from rfl)
    obtain rfl : '\n' = d := eq_of_beq accepted
    exact absurd (mem_of_getElem? (by simpa using there)) single
  · have done : textFrom line.toArray v.pos = [] :=
      textFrom_of_stop (fun member => single (mem_of_mem_drop member)) ends
    have whole : textFrom line.toArray 0 = _ := textFrom_split (Nat.zero_le v.pos)
    rw [textFrom_zero, done, append_nil] at whole
    exact congrArg String.ofList whole.symm

end Fields

section Lines

variable {indent : Indentation} {level : Int} {nameWidth typeWidth : Nat} {line : List Char}

def recordLine (indent : Indentation) (level : Int) (nameWidth typeWidth : Nat) (line : String) :
    Except Fault String :=
  match (Regex.ofNode oneRow fieldRow).matchStart? line with
  | some m => .ok (renderField level nameWidth typeWidth m)
  | none =>
    match commentLine.matchStart? line with
    | some m => renderFieldComment indent level (nameWidth + typeWidth) m
    | none => .ok line

theorem recordLine_kept (levelled : indent.useSpaces = true → indent.tabSize ≠ 0) (single : '\n' ∉ line)
    (keeps : ∀ m, (Regex.ofNode oneRow fieldRow).matchStart? (String.ofList line) = some m →
      ∀ c ∈ line.drop m.stop, isBlank c = true) :
    ∃ new, recordLine indent level nameWidth typeWidth (String.ofList line) = .ok new ∧
      (marks feeds new.toList = marks feeds line ∨
        (∃ m, (Regex.ofNode oneRow fieldRow).matchStart? (String.ofList line) = some m ∧ m.named? "comment" = some "") ∧
          Bared line new.toList) := by
  unfold recordLine
  cases found : (Regex.ofNode oneRow fieldRow).matchStart? (String.ofList line) with
  | some m =>
    exact ⟨_, rfl, (marks_renderField level nameWidth typeWidth single found (keeps m found)).imp_right
      fun lost => ⟨⟨m, rfl, lost.1⟩, lost.2⟩⟩
  | none =>
    cases comment : commentLine.matchStart? (String.ofList line) with
    | none => exact ⟨_, rfl, Or.inl (by rw [String.toList_ofList])⟩
    | some m =>
      obtain ⟨depth, deep⟩ : ∃ depth, indent.level (m.named "space") = .ok depth := by
        unfold Indentation.level
        split
        · next spaces => exact ⟨_, if_neg (levelled spaces)⟩
        · exact ⟨_, rfl⟩
      have rendered : renderFieldComment indent level (nameWidth + typeWidth) m = .ok (tabs (level + 1) ++
          spaces (if level + 1 < depth then nameWidth + typeWidth else 0) ++ trim m.text) := by
        simp only [renderFieldComment, deep]
        rfl
      refine ⟨_, rendered, Or.inl ?_⟩
      rw [text_commentLine single comment, String.toList_append, String.toList_append, toList_trim_ofList, append_assoc,
        spaces, String.toList_ofList, marks_lead feeds_of_mem (isBlank_of_mem_tabs (level + 1)),
        marks_lead feeds_of_mem inLine_replicate.blank, marks_trimmed feeds_of_mem]

/-- The fields of a record are kept: only blanks stand behind each of them on its line, no line comment exposes anything, and
in a text with quotes no field has an empty comment. -/
def keepsFields (content : String) : Bool :=
  (lineComments content.toList).all (!exposes false ·) && (lines (trim content)).all fun line =>
    ((Regex.ofNode oneRow fieldRow).matchStart? line).all fun m =>
      (line.toList.drop m.stop).all isBlank && !(content.toList.contains '"' && m.named? "comment" == some "")

theorem renderLines_kept {content : String} (levelled : indent.useSpaces = true → indent.tabSize ≠ 0)
    (keeps : keepsFields content = true) (level : Int) (nameWidth typeWidth : Nat) :
    ∃ news, renderLines (Regex.ofNode oneRow fieldRow) (renderField level nameWidth typeWidth)
        (renderFieldComment indent level (nameWidth + typeWidth)) (lines (trim content)) = .ok news ∧
      codeOf ((news.map String.toList).flatMap (marks feeds)) =
        (marks feeds (blankComments content.toList)).map Mark.shape := by
  rw [keepsFields, Bool.and_eq_true] at keeps
  have each : ∀ l ∈ linesFrom [] (trimmed content.toList),
      ∃ new, recordLine indent level nameWidth typeWidth (String.ofList l) = .ok new ∧
        (marks feeds new.toList = marks feeds l ∨ '"' ∉ content.toList ∧ Bared l new.toList) := by
    intro l member
    have listed : String.ofList l ∈ lines (trim content) := lines_trim content ▸ mem_map_of_mem member
    have line := all_eq_true.mp keeps.2 _ listed
    have kept (m : Match) (found : (Regex.ofNode oneRow fieldRow).matchStart? (String.ofList l) = some m) :
        (∀ c ∈ l.drop m.stop, isBlank c = true) ∧ ('"' ∉ content.toList ∨ m.named? "comment" ≠ some "") := by
      simpa [found] using line
    obtain ⟨new, done, same⟩ := recordLine_kept levelled (feed_not_mem_of_mem_linesFrom not_mem_nil member)
      fun m found => (kept m found).1
    refine ⟨new, done, same.imp_right ?_⟩
    rintro ⟨⟨m, found, empty⟩, bared⟩
    exact ⟨(kept m found).2.resolve_right fun some => some empty, bared⟩
  let laidLine (l : List Char) : List Char :=
    ((recordLine indent level nameWidth typeWidth (String.ofList l)).toOption.getD "").toList
  have laid_eq {l : List Char} {new : String}
      (done : recordLine indent level nameWidth typeWidth (String.ofList l) = .ok new) : laidLine l = new.toList := by
    simp only [laidLine, done]
    rfl
  refine ⟨(linesFrom [] (trimmed content.toList)).map fun l => String.ofList (laidLine l), ?_, ?_⟩
  · have total : ∀ line ∈ lines (trim content), recordLine indent level nameWidth typeWidth line =
        pure (String.ofList (laidLine line.toList)) := by
      intro line member
      rw [lines_trim] at member
      obtain ⟨l, listed, rfl⟩ := mem_map.mp member
      obtain ⟨new, done, -⟩ := each l listed
      rw [String.toList_ofList, laid_eq done, String.ofList_toList, done]
      rfl
    refine (mapM_congr total).trans ?_
    rw [mapM_pure, lines_trim, map_map]
    simp only [Function.comp_def, String.toList_ofList]
    rfl
  · rw [map_map]
    simp only [Function.comp_def, String.toList_ofList]
    refine codeOf_lines (fun body member => ?_) fun l member => ?_
    · simpa using all_eq_true.mp keeps.1 body member
    · obtain ⟨new, done, same⟩ := each l member
      rwa [laid_eq done]

end Lines

section Record

variable {text : String} {m : Match}

/-- The text is a record type with blanks around it: its keywords are in lower case, and its end stands in no comment. -/
def isRecord (text : String) (m : Match) : Bool :=
  (place? m "content").any fun (first, last) =>
    let content := (m.named "content").toList
    let tail := text.toList.drop last
    solids (text.toList.take first) == ("type" ++ m.named "name" ++ "isrecord").toList &&
      solids tail == "endrecord;".toList && blankComments (content ++ tail) == blankComments content ++ tail

/-- A text without a record type, or a record type whose fields are kept. -/
def keepsRecord (text : String) : Bool :=
  (recordBlock.search? text).all fun m => isRecord text m && keepsFields (m.named "content")

theorem exists_content (found : recordBlock.search? text = some m) :
    ∃ (name : Identifier) (first last : Nat), m.named "name" = String.ofList name.chars ∧
      place? m "content" = some (first, last) ∧ first ≤ last ∧
        m.named "content" = String.ofList (segment text.toList.toArray first last) := by
  obtain ⟨pos, b, there⟩ := Regex.exists_matchAt_of_search found
  obtain ⟨t, reached, rfl⟩ := Regex.matchAt_reaches there
  have nameAlways : recordBlock.node.always 1 = some identifier := rfl
  have contentAlways : recordBlock.node.always 2 = some (few .any) := rfl
  obtain ⟨u, u', passed, span⟩ := reached.span_of_always nameAlways (by simp; decide)
  obtain ⟨v, v', within, span'⟩ := reached.span_of_always contentAlways (by simp; decide)
  have full : Full recordBlock.options := ⟨rfl⟩
  obtain ⟨name, here, rfl⟩ := reaches_identifier passed
  refine ⟨name, v.pos, v'.pos, named_of_span 0 rfl span rfl here, (place?_eq rfl).trans (by rw [span']; rfl), within.pos_le, ?_⟩
  rw [Match.named, Match.named?_eq_segment rfl span']
  rfl

theorem solids_lines {front back : List Char} (plain : ∀ c ∈ front, isPlain c = true)
    (plain' : ∀ c ∈ back, isPlain c = true) (ls : List (List Char)) :
    solids (blankComments (front ++ ('\n' :: Text.unlines ls ++ back))) =
      solids front ++ ((codeOf (ls.flatMap (marks feeds))).map Prod.fst ++ solids back) := by
  obtain ⟨cs, form⟩ : ∃ cs, '\n' :: Text.unlines ls = cs ++ ['\n'] := by
    rcases eq_nil_or_concat ls with rfl | ⟨init, last, rfl⟩
    · exact ⟨[], rfl⟩
    · exact ⟨'\n' :: (Text.unlines init ++ last), by rw [concat_eq_append, unlines_append]; simp⟩
  have feed : ∀ c ∈ ['\n'], isPlain c = true := by decide
  have same : '\n' :: blankComments (Text.unlines ls) = blankComments cs ++ ['\n'] := by
    have kept := blankComments_plain feed (Text.unlines ls)
    have behind := @blankComments_behind [] (fun _ none => absurd none not_mem_nil) cs
    rw [← behind, ← form]
    exact kept.symm
  have code : (codeOf (ls.flatMap (marks feeds))).map Prod.fst = solids (blankComments cs) := by
    have solid := congrArg solids same
    rw [← marks_unlines, codeOf_marks, chars_shapes]
    simpa [solids, show isBlank '\n' = true from rfl] using solid
  rw [blankComments_plain plain, form, append_assoc, singleton_append, blankComments_behind plain', solids_append,
    solids_append, code]
  rfl

theorem toList_unlines (news : List String) : (unlines news).toList = Text.unlines (news.map String.toList) := by
  induction news with
  | nil => rfl
  | cons new news ih =>
    have rest : (String.join (news.map (· ++ "\n"))).toList = Text.unlines (news.map String.toList) := ih
    rw [unlines, map_cons, String.join_cons, String.toList_append, rest, String.toList_append, map_cons,
      unlines_cons, append_assoc]
    rfl

/-- The characters of a record type with some code between its keywords. -/
def recordSolids (name : Identifier) (code : List Char) : List Char :=
  "type".toList ++ (name.chars ++ ("isrecord".toList ++ (code ++ "endrecord;".toList)))

theorem solids_written (level : Int) (name : Identifier) (news : List String) :
    solids (withoutComments (tabs level ++ "type " ++ String.ofList name.chars ++ " is record\n" ++ unlines news ++
        tabs level ++ "end record;")).toList =
      recordSolids name ((codeOf ((news.map String.toList).flatMap (marks feeds))).map Prod.fst) := by
  have tabbed := isBlank_of_mem_tabs level
  have front : ∀ c ∈ (tabs level).toList ++ ("type ".toList ++ (name.chars ++ " is record".toList)), isPlain c = true := by
    simp only [forall_mem_append]
    exact ⟨fun c member => isPlain_of_isBlank (tabbed c member), by decide,
      fun c member => isPlain_of_isWord (name.wordy c member), by decide⟩
  have behind : ∀ c ∈ (tabs level).toList ++ "end record;".toList, isPlain c = true :=
    forall_mem_append.mpr ⟨fun c member => isPlain_of_isBlank (tabbed c member), by decide⟩
  have new : (tabs level ++ "type " ++ String.ofList name.chars ++ " is record\n" ++ unlines news ++ tabs level ++
      "end record;").toList = ((tabs level).toList ++ ("type ".toList ++ (name.chars ++ " is record".toList))) ++
        ('\n' :: Text.unlines (news.map String.toList) ++ ((tabs level).toList ++ "end record;".toList)) := by
    simp [toList_unlines]
  have word : solids name.chars = name.chars := filter_eq_self.mpr fun c member => by simp [name.solid c member]
  rw [withoutComments, String.toList_ofList, new, solids_lines front behind]
  simp only [solids_append, solids_of_blank tabbed, word, nil_append, append_assoc]
  rfl

theorem solids_text {name : Identifier} (found : recordBlock.search? text = some m)
    (named : m.named "name" = String.ofList name.chars) (record : isRecord text m = true) :
    solids (withoutComments text).toList = recordSolids name (solids (blankComments (m.named "content").toList)) := by
  obtain ⟨-, first, last, -, placed, forward, content⟩ := exists_content found
  simp only [isRecord, placed, Option.any_some, Bool.and_eq_true, beq_iff_eq, named, String.toList_append,
    String.toList_ofList] at record
  obtain ⟨⟨head, tail⟩, outside⟩ := record
  have words : ∀ c ∈ "type".toList ++ name.chars ++ "isrecord".toList, isPlain c = true := by
    simp only [forall_mem_append]
    exact ⟨⟨by decide, fun c member => isPlain_of_isWord (name.wordy c member)⟩, by decide⟩
  have before : ∀ c ∈ text.toList.take first, isPlain c = true := by
    intro c member
    cases blank : isBlank c with
    | true => exact isPlain_of_isBlank blank
    | false => exact words c (head ▸ mem_solids.mpr ⟨member, blank⟩)
  have split : text.toList.drop first = segment text.toList.toArray first last ++ text.toList.drop last :=
    textFrom_split forward
  have whole : text.toList = text.toList.take first ++ ((m.named "content").toList ++ text.toList.drop last) := by
    rw [content, String.toList_ofList, ← split, take_append_drop]
  rw [withoutComments, String.toList_ofList]
  conv_lhs => rw [whole]
  rw [blankComments_plain before, outside, solids_append, solids_append, head, tail, recordSolids]
  simp only [append_assoc]

/-- A record type keeps the characters of its code if only blanks and a comment stand behind each of its fields. -/
theorem record_fields_kept (indent : Indentation) (text : String) (level : Int)
    (levelled : indent.useSpaces = true → indent.tabSize ≠ 0) (keeps : keepsRecord text = true) :
    ∃ new, alignRecord indent text level = .ok new ∧
      solids (withoutComments new).toList = solids (withoutComments text).toList := by
  cases found : recordBlock.search? text with
  | none => exact ⟨text, by simp only [alignRecord, found]; rfl, rfl⟩
  | some m =>
    obtain ⟨name, _, _, named, -⟩ := exists_content found
    rw [keepsRecord, found, Option.all_some, Bool.and_eq_true] at keeps
    obtain ⟨news, rendered, code⟩ := renderLines_kept levelled keeps.2 level
      (columnWidth ((Regex.ofNode blockRows fieldRow).matches_ (withoutComments (m.named "content"))) "name")
      (columnWidth ((Regex.ofNode blockRows fieldRow).matches_ (withoutComments (m.named "content"))) "type")
    have aligned : alignRecord indent text level = .ok (tabs level ++ "type " ++ m.named "name" ++ " is record\n" ++
        unlines news ++ tabs level ++ "end record;") := by
      simp only [alignRecord, found, rendered]
      rfl
    refine ⟨_, aligned, ?_⟩
    rw [named, solids_written, code, chars_shapes, solids_text found named keeps.1]

theorem record_fields_kept_commented :
    keepsRecord " type t is record\n-- first\n  a : bit; -- one\n  c : natural\n    range 0 to 3;\nend record ;" = true ∧
      ∃ new, alignRecord {} " type t is record\n-- first\n  a : bit; -- one\n  c : natural\n    range 0 to 3;\nend record ;" 1 =
        .ok new ∧ solids (withoutComments new).toList = solids (withoutComments
          " type t is record\n-- first\n  a : bit; -- one\n  c : natural\n    range 0 to 3;\nend record ;").toList := by
  have keeps : keepsRecord
      " type t is record\n-- first\n  a : bit; -- one\n  c : natural\n    range 0 to 3;\nend record ;" = true := by
    decide +kernel
  exact ⟨keeps, record_fields_kept {} _ 1 (by decide) keeps⟩

/-- The second field of a line is lost. -/
theorem field_behind_field_lost :
    alignRecord {} "type t is record\n  a : bit; b : bit;\nend record;" 0 =
        .ok "type t is record\n\ta : bit;\nend record;" ∧
      solids (withoutComments "type t is record\n\ta : bit;\nend record;").toList ≠
        solids (withoutComments "type t is record\n  a : bit; b : bit;\nend record;").toList := by
  rw [alignRecord, Regex.search?, String.toList_ofList]
  decide +kernel

end Record

end VhdlWorkbench.Layout

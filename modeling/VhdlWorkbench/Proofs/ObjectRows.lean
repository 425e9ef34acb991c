import VhdlWorkbench.Layout.Objects
import VhdlWorkbench.Proofs.KeptRows

/-!
Declarations of objects that are laid out keep the tokens of their code.
-/

namespace VhdlWorkbench.Layout

open String (ofList toList_ofList)
open Pattern Pattern.Node Text Source Design List String Option

/-- One part of a match ends where another one begins. -/
def touches (m : Match) (first second : String) : Bool :=
  (place? m first).map Prod.snd == (place? m second).map Prod.fst

/-- The range of a declaration is written in the columns, and set off from the type as it was. -/
def keepsRange (w : ObjectColumns) (m : Match) : Bool :=
  let range := m.named "range"
  range.isEmpty || (decide (0 < w.range) && (!range.toList.head?.any isWord ||
    touches m "type" "range" == !(hasRangeWord range || decide ((m.named "type").length < w.type))))

/-- A declaration keeps its tokens in the columns. -/
def keepsTokens (w : ObjectColumns) (m : Match) : Bool :=
  !touches m "qual" "name" && keepsRange w m && ((part? m "init_val").isNone || decide (0 < w.initial))

/-- The assignment of an initial value. -/
structure Assignment where
  before : Spaces
  behind : Spaces
  value : List Char
  nonempty : value ≠ []
  visible : '\n' ∉ value

def Assignment.chars (a : Assignment) : List Char :=
  a.before.1 ++ ':' :: '=' :: (a.behind.1 ++ a.value)

/-- A declaration of objects as it is written. -/
structure ObjectText where
  lead : Spaces
  qualifier : Identifier
  afterQualifier : Spaces
  names : List Char
  beforeColon : Spaces
  afterColon : Spaces
  type : Identifier
  afterType : Spaces
  range : List Char
  assigned : Option Assignment
  beforeEnd : Spaces
  behindEnd : Spaces
  comment : Option (List Char)
  opens : ∃ c rest, names = c :: rest ∧ isWord c = true
  ranged : range = [] ∨ ∃ c rest, range = c :: rest ∧ (c = '(' ∨ isWord c = true)
  single : '\n' ∉ names ∧ '\n' ∉ range

namespace ObjectText

def parts (d : ObjectText) : List Char :=
  d.range ++ ((d.assigned.elim [] Assignment.chars) ++ d.beforeEnd.1)

def head (d : ObjectText) : List Char :=
  d.lead.1 ++ (d.qualifier.chars ++ (d.afterQualifier.1 ++ (d.names ++ (d.beforeColon.1 ++ ':' :: (d.afterColon.1 ++
    (d.type.chars ++ (d.afterType.1 ++ d.parts)))))))

def text (d : ObjectText) : List Char :=
  d.head ++ ';' :: (d.behindEnd.1 ++ written d.comment)

end ObjectText

/-- The parts of a match are those of the declaration. -/
structure Reading (m : Match) (d : ObjectText) : Prop where
  qualifier : m.named "qual" = ofList d.qualifier.chars
  names : m.named "name" = ofList d.names
  type : m.named "type" = ofList d.type.chars
  range : m.named "range" = ofList d.range
  value : part? m "init_val" = d.assigned.map fun a => ofList a.value
  comment : m.named? "comment" = d.comment.map ofList
  qualified : touches m "qual" "name" = d.afterQualifier.1.isEmpty
  joined : d.range ≠ [] → touches m "type" "range" = d.afterType.1.isEmpty

def rangeNode : Node :=
  choice
    [lit "(" ++ many (.set true [.char ')']) ++ lit ")",
     lit "range" ++ spacing1 ++ rangeBound ++ spacing1 ++
      .group (Node.optional (.group (lit "down")) ++ lit "to") ++ spacing1 ++ rangeBound]

def initialNode : Node :=
  spacing ++ lit ":=" ++ spacing ++ .capture 6 (some "init_val") (.run (.set true [.char ';']) 1 none .lazy)

def objectNode : Node :=
  start ++ spacing ++ .capture 1 (some "qual") identifier ++ spacing ++ .capture 2 (some "name") nameList ++ spacing ++
    lit ":" ++ spacing ++ .capture 3 (some "type") identifier ++ spacing ++
    Node.optional (.capture 4 (some "range") rangeNode) ++ Node.optional (.capture 5 (some "init") initialNode) ++
    spacing ++ lit ";" ++ spacing ++
    Node.optional (.group (lit "--" ++ .capture 7 (some "comment") (many commentChar))) ++ stop

theorem objectRegex_eq : Regex.ofNode oneRow objectRow =
    { node := objectNode, options := oneRow, slots := 8,
      names := [("qual", 1), ("name", 2), ("type", 3), ("range", 4), ("init", 5), ("init_val", 6), ("comment", 7)] } :=
  rfl

section Reading

variable {text : Array Char} {t t' : Thread}

theorem segment_cons {p q : Nat} {c : Char} {rest : List Char} (here : textFrom text p = c :: rest) (behind : p < q) :
    ∃ more, segment text p q = c :: more := by
  obtain ⟨k, rfl⟩ := Nat.exists_eq_add_of_lt behind
  refine ⟨rest.take k, ?_⟩
  rw [segment_eq_take, here, show p + k + 1 - p = k + 1 by omega, take_succ_cons]

theorem opens_of_range (reached : Reaches text rangeNode oneRow t t') :
    ∃ c rest, segment text t.pos t'.pos = c :: rest ∧ (c = '(' ∨ isWord c = true) := by
  rcases reached with bracket | word
  · obtain ⟨_, toClose, close⟩ := reaches_seq bracket
    obtain ⟨_, opening, inner⟩ := reaches_seq toClose
    obtain ⟨here, rfl⟩ := reaches_mark (by rfl) (by decide) opening
    obtain ⟨more, form⟩ := segment_cons here (Nat.le_trans inner.pos_le close.pos_le)
    exact ⟨'(', more, form, Or.inl rfl⟩
  · obtain ⟨_, six, bound⟩ := reaches_seq word
    obtain ⟨_, five, blanks⟩ := reaches_seq six
    obtain ⟨_, four, direction⟩ := reaches_seq five
    obtain ⟨_, three, blanks'⟩ := reaches_seq four
    obtain ⟨_, two, bound'⟩ := reaches_seq three
    obtain ⟨_, opening, blanks''⟩ := reaches_seq two
    obtain ⟨w, reads, here, rfl⟩ := reaches_word opening
    have behind := Nat.le_trans blanks''.pos_le (Nat.le_trans bound'.pos_le (Nat.le_trans blanks'.pos_le
      (Nat.le_trans direction.pos_le (Nat.le_trans blanks.pos_le bound.pos_le))))
    have wordy := reads.wordy (by decide)
    have length := reads.length_eq
    cases w with
    | nil => exact absurd length (by decide)
    | cons c w =>
      obtain ⟨more, form⟩ := segment_cons here (Nat.lt_of_lt_of_le (by simp) behind)
      exact ⟨c, more, form, Or.inr (wordy c mem_cons_self)⟩

theorem reaches_range (room : 4 < t.spans.size) (unset : t.spans[4]? = some none)
    (reached : Reaches text (optional (.capture 4 (some "range") rangeNode)) oneRow t t') :
    ∃ range, textFrom text t.pos = range ++ textFrom text t'.pos ∧
      (range = [] ∧ t'.spans[4]? = some none ∨ t'.spans[4]? = some (some (t.pos, t'.pos)) ∧ segment text t.pos t'.pos = range ∧
          ∃ c rest, range = c :: rest ∧ (c = '(' ∨ isWord c = true)) := by
  rcases reaches_optional reached with rfl | capture
  · exact ⟨[], rfl, Or.inl ⟨rfl, unset⟩⟩
  · have whole : textFrom text _ = _ := textFrom_split capture.pos_le
    have opens : ∃ c rest, segment text t.pos t'.pos = c :: rest ∧ (c = '(' ∨ isWord c = true) := by
      obtain ⟨u, body, rfl⟩ := capture
      have opens := opens_of_range body
      exact opens
    exact ⟨_, whole, Or.inr ⟨span_of_capture capture room, rfl, opens⟩⟩

theorem reaches_initial (room : 6 < t.spans.size) (unset : t.spans[6]? = some none)
    (single : '\n' ∉ textFrom text t.pos)
    (reached : Reaches text (optional (.capture 5 (some "init") initialNode)) oneRow t t') :
    ∃ assigned : Option Assignment,
      textFrom text t.pos = assigned.elim [] Assignment.chars ++ textFrom text t'.pos ∧
        (t'.spans[6]?).join.map (fun span => segment text span.1 span.2) = assigned.map Assignment.value := by
  rcases reaches_optional reached with rfl | ⟨_, inner, rfl⟩
  · exact ⟨none, rfl, by rw [unset]; rfl⟩
  · obtain ⟨_, toValue, _, value, rfl⟩ := reaches_seq inner
    obtain ⟨_, toBehind, behind⟩ := reaches_seq toValue
    obtain ⟨_, before, sign⟩ := reaches_seq toBehind
    obtain ⟨first, atFirst, rfl⟩ := reaches_spacing before
    obtain ⟨atSign, rfl⟩ := reaches_marks (by decide) sign
    obtain ⟨second, atSecond, rfl⟩ := reaches_spacing behind
    obtain ⟨seg, atValue, -, enough, -, rfl⟩ := reaches_run value
    have here : textFrom text t.pos = first.1 ++ (":=".toList ++ (second.1 ++ (seg ++ textFrom text
        (t.pos + first.1.length + ":=".toList.length + second.1.length + seg.length)))) := by
      rw [atFirst, atSign, atSecond, atValue]
    have visible : '\n' ∉ seg := by
      intro member
      exact single (by rw [here]; simp [member])
    refine ⟨some ⟨first, second, seg, length_pos_iff.mp enough, visible⟩, ?_, ?_⟩
    · rw [here]
      simp [Assignment.chars]
    · have span := segment_of_textFrom atValue
      simpa [room] using span

theorem reaches_comment? (room : 7 < t.spans.size) (unset : t.spans[7]? = some none)
    (reached : Reaches text (optional (.group (lit "--" ++ .capture 7 (some "comment") (many commentChar)))) oneRow t t') :
    ∃ comment, textFrom text t.pos = written comment ++ textFrom text t'.pos ∧
      (t'.spans[7]?).join.map (fun span => segment text span.1 span.2) = comment := by
  rcases reaches_optional reached with rfl | written
  · exact ⟨none, rfl, by rw [unset]; rfl⟩
  · obtain ⟨_, dashes, capture⟩ := reaches_seq written
    obtain ⟨body, here, got⟩ := reaches_comment dashes capture room
    exact ⟨some body, here, got⟩

theorem opens_of_names (reached : Reaches text (.capture 2 (some "name") nameList) oneRow t t') :
    ∃ c rest, segment text t.pos t'.pos = c :: rest ∧ isWord c = true := by
  obtain ⟨u, body, rfl⟩ := reached
  obtain ⟨_, word, list⟩ := reaches_seq body
  obtain ⟨name, here, rfl⟩ := reaches_identifier word
  have behind := list.pos_le
  have wordy := name.wordy
  cases chars : name.chars with
  | nil => exact absurd chars name.nonempty
  | cons c rest =>
    rw [chars] at here wordy behind
    obtain ⟨more, form⟩ := segment_cons here (Nat.lt_of_lt_of_le (by simp) behind)
    exact ⟨c, more, form, wordy c mem_cons_self⟩

theorem place_beq_add (pos : Nat) (gap : List Char) : (some pos == some (pos + gap.length)) = gap.isEmpty := by
  cases gap <;> simp

theorem reaches_object {cs : List Char} (single : '\n' ∉ cs)
    (reached : Reaches cs.toArray objectNode oneRow ⟨0, Array.replicate 8 none⟩ t) :
    ∃ d : ObjectText, d.text = cs ∧
      Reading ⟨cs.toArray, 0, t.pos, t.spans, (Regex.ofNode oneRow objectRow).names⟩ d := by
  simp only [objectNode] at reached
  obtain ⟨_, whole, ends, rfl⟩ := reaches_seq reached
  obtain ⟨_, toComment, comment⟩ := reaches_seq whole
  obtain ⟨_, toBehind, behind⟩ := reaches_seq toComment
  obtain ⟨behindEnd, atBehind, rfl⟩ := reaches_spacing behind
  obtain ⟨_, toSemicolon, semicolon⟩ := reaches_seq toBehind
  obtain ⟨atSemicolon, rfl⟩ := reaches_mark (c := ';') rfl (by decide) semicolon
  obtain ⟨v, toEnd, before⟩ := reaches_seq toSemicolon
  obtain ⟨beforeEnd, atEnd, rfl⟩ := reaches_spacing before
  obtain ⟨u, toValue, value⟩ := reaches_seq toEnd
  obtain ⟨_, toRange, range⟩ := reaches_seq toValue
  obtain ⟨s, toType, blanks⟩ := reaches_seq toRange
  obtain ⟨afterType, atAfterType, rfl⟩ := reaches_spacing blanks
  obtain ⟨_, toAfterColon, type⟩ := reaches_seq toType
  obtain ⟨_, toColon, blanks1⟩ := reaches_seq toAfterColon
  obtain ⟨afterColon, atAfterColon, rfl⟩ := reaches_spacing blanks1
  obtain ⟨_, toBeforeColon, colon⟩ := reaches_seq toColon
  obtain ⟨atColon, rfl⟩ := reaches_mark (c := ':') rfl (by decide) colon
  obtain ⟨n, toNames, blanks2⟩ := reaches_seq toBeforeColon
  obtain ⟨beforeColon, atBeforeColon, rfl⟩ := reaches_spacing blanks2
  obtain ⟨_, toGap, names⟩ := reaches_seq toNames
  obtain ⟨q, toQualifier, blanks3⟩ := reaches_seq toGap
  obtain ⟨afterQualifier, atGap, rfl⟩ := reaches_spacing blanks3
  obtain ⟨_, toLead, qualifier⟩ := reaches_seq toQualifier
  obtain ⟨_, ⟨-, rfl⟩, first⟩ := reaches_seq toLead
  obtain ⟨lead, atLead, rfl⟩ := reaches_spacing first
  have visible (pos : Nat) : '\n' ∉ textFrom cs.toArray pos := fun member => single (mem_of_mem_drop member)
  obtain ⟨body, atBody, gotBody⟩ := reaches_comment? (toComment.spans_size.symm ▸ by decide)
    ((toComment.span_eq (by decide)).trans rfl) comment
  obtain ⟨assigned, atInit, gotInit⟩ := reaches_initial (toValue.spans_size.symm ▸ by decide)
    ((toValue.span_eq (by decide)).trans rfl) (visible _) value
  obtain ⟨interval, atRange, gotRange⟩ := reaches_range (toRange.spans_size.symm ▸ by decide)
    ((toRange.span_eq (by decide)).trans rfl) range
  have typeSpan := span_of_capture type (toAfterColon.spans_size.symm ▸ by decide)
  have nameSpan := span_of_capture names (toGap.spans_size.symm ▸ by decide)
  have qualSpan := span_of_capture qualifier (toLead.spans_size.symm ▸ by decide)
  have afterComment {slot : Nat} (other : slot ∉ [7]) : t.spans[slot]? = v.spans[slot]? := span_kept comment rfl other rfl
  have afterValue {slot : Nat} (other : slot ∉ [5, 6]) : v.spans[slot]? = u.spans[slot]? := span_kept value rfl other rfl
  have afterRange {slot : Nat} (other : slot ∉ [4]) : u.spans[slot]? = s.spans[slot]? := span_kept range rfl other rfl
  have typed {slot : Nat} (other : slot ∉ [3]) : s.spans[slot]? = n.spans[slot]? := span_kept type rfl other rfl
  have listed {slot : Nat} (other : slot ∉ [2]) : n.spans[slot]? = q.spans[slot]? := span_kept names rfl other rfl
  have done := textFrom_of_stop (visible _) ends
  have atNames : textFrom cs.toArray _ = _ := textFrom_split names.pos_le
  obtain ⟨c, rest, opens, wordy⟩ := opens_of_names names
  obtain ⟨_, named, rfl⟩ := qualifier
  obtain ⟨word, atWord, rfl⟩ := reaches_identifier named
  obtain ⟨_, marked, rfl⟩ := type
  obtain ⟨mark, atMark, rfl⟩ := reaches_identifier marked
  dsimp only at *
  have written : textFrom cs.toArray 0 = lead.1 ++ (word.chars ++ (afterQualifier.1 ++ ((c :: rest) ++
      (beforeColon.1 ++ ':' :: (afterColon.1 ++ (mark.chars ++ (afterType.1 ++ (interval ++
        (assigned.elim [] Assignment.chars ++ (beforeEnd.1 ++ ';' :: (behindEnd.1 ++ written body))))))))))) := by
    rw [atLead, atWord, atGap, atNames, opens, atBeforeColon, atColon, atAfterColon, atMark, atAfterType, atRange, atInit, atEnd,
      atSemicolon, atBehind, atBody, done, append_nil]
  have toNames {slot : Nat} (other : slot ∉ [3, 4, 5, 6, 7]) : t.spans[slot]? = n.spans[slot]? := by
    simp only [mem_cons, not_mem_nil, or_false, not_or] at other
    rw [afterComment (by simp [other]), afterValue (by simp [other]), afterRange (by simp [other]), typed (by simp [other])]
  have nameKept := (toNames (by decide)).trans nameSpan
  have qualKept := ((toNames (by decide)).trans (listed (by decide))).trans qualSpan
  have typeKept := ((afterComment (by decide)).trans ((afterValue (by decide)).trans (afterRange (by decide)))).trans typeSpan
  have rangeKept : t.spans[4]? = u.spans[4]? := (afterComment (by decide)).trans (afterValue (by decide))
  have valueKept : t.spans[6]? = v.spans[6]? := afterComment (by decide)
  refine ⟨⟨lead, word, afterQualifier, c :: rest, beforeColon, afterColon, mark, afterType, interval, assigned, beforeEnd,
    behindEnd, body, ⟨c, rest, rfl, wordy⟩, ?_, ?_⟩, ?_, ?_⟩
  · rcases gotRange with ⟨none, -⟩ | ⟨-, -, some⟩
    · exact Or.inl none
    · exact Or.inr some
  · constructor
    · intro member
      exact visible 0 (by rw [written]; simp only [mem_append, member, true_or, or_true])
    · intro member
      exact visible 0 (by rw [written]; simp only [mem_append, mem_cons, member, true_or, or_true])
  · rw [textFrom_zero] at written
    conv_rhs => rw [written]
    simp only [ObjectText.text, ObjectText.head, ObjectText.parts, List.append_assoc, List.cons_append]
  · constructor
    · exact named_of_span 0 rfl qualKept rfl atWord
    · rw [Match.named, Match.named?_eq_segment rfl nameKept, opens]
      rfl
    · exact named_of_span 2 rfl typeKept rfl atMark
    · rcases gotRange with ⟨rfl, none⟩ | ⟨some, taken, -⟩
      · exact named_of_unset 3 rfl (rangeKept.trans none)
      · rw [Match.named, Match.named?_eq_segment rfl (rangeKept.trans some)]
        exact congrArg ofList taken
    · have value := congrArg (Option.map ofList) gotInit
      rw [part?, named?_eq rfl, valueKept]
      rw [Option.map_map, Option.map_map] at value
      cases assigned with
      | none => exact (congrArg (Option.filter _) value).trans rfl
      | some a =>
        have some : (ofList a.value).isEmpty = false := by simp [a.nonempty]
        exact (congrArg (Option.filter _) value).trans (by simp [some])
    · have comment := congrArg (Option.map ofList) gotBody
      rw [Option.map_map] at comment
      rw [named?_eq rfl]
      exact comment
    · rw [touches, place?_eq rfl, place?_eq rfl, qualKept, nameKept]
      exact place_beq_add _ afterQualifier.1
    · rcases gotRange with ⟨none, -⟩ | ⟨some, -⟩
      · exact fun nonempty => absurd none nonempty
      · intro _
        rw [touches, place?_eq rfl, place?_eq rfl, typeKept, rangeKept.trans some]
        exact place_beq_add _ afterType.1

end Reading

variable {line : List Char} {m : Match}

theorem exists_objectText (single : '\n' ∉ line)
    (found : (Regex.ofNode oneRow objectRow).matchStart? (ofList line) = some m) :
    ∃ d : ObjectText, d.text = line ∧ Reading m d := by
  rw [Regex.matchStart?, toList_ofList, objectRegex_eq] at found
  obtain ⟨t, whole, rfl⟩ := Regex.matchAt_reaches found
  exact reaches_object single whole

section Marks

variable {w : ObjectColumns} {d : ObjectText} {cs before behind : List Char}

theorem toList_spaces (n : Nat) : (spaces n).toList = List.replicate n ' ' := by
  rw [spaces, toList_ofList]

theorem alike_value {assigned : Option Assignment} {width : Nat} (room : assigned = none ∨ 0 < width)
    (inside : InLine before) (inside' : InLine behind) (gap : Spaces) :
    Alike (before ++ ((initialColumn width (assigned.map fun a => ofList a.value)).toList ++ ';' :: cs))
      (behind ++ (assigned.elim [] Assignment.chars ++ (gap.1 ++ ';' :: cs))) := by
  cases assigned with
  | none =>
    obtain ⟨pad, padding, padded⟩ : ∃ pad, InLine pad ∧ (initialColumn width none).toList = pad := by
      rw [initialColumn]
      split
      · exact ⟨[], inLine_nil, rfl⟩
      · exact ⟨_, inLine_replicate, toList_spaces width⟩
    have alike : Alike ((before ++ pad) ++ ';' :: cs) ((behind ++ gap.1) ++ ';' :: cs) :=
      Alike.alone (by decide) (by decide) (inside.append padding) (inside'.append gap.2) rfl
    simpa [padded] using alike
  | some a =>
    have wide : ¬width = 0 := by
      rcases room with none | wide
      · cases none
      · omega
    obtain ⟨pad, padding, padded⟩ := exists_pad (width - 4) a.value
    have column : (initialColumn width (some (ofList a.value))).toList =
        ' ' :: ':' :: '=' :: ' ' :: (a.value ++ pad) := by
      simp [initialColumn, wide, toList_padRight, padded]
    have value : Alike (a.value ++ (pad ++ ';' :: cs)) (a.value ++ (gap.1 ++ ';' :: cs)) :=
      Alike.text a.visible (Alike.alone (by decide) (by decide) padding gap.2 rfl)
    have sign : marksFrom feeds ':' [] ('=' :: ([' '] ++ (a.value ++ (pad ++ ';' :: cs)))) =
        marksFrom feeds ':' [] ('=' :: (a.behind.1 ++ (a.value ++ (gap.1 ++ ';' :: cs)))) :=
      marksFrom_keep (by decide) [] (value.spaced (by decide) inLine_space a.behind.2)
    have alike := Alike.alone (by decide) (by decide) (inside.append inLine_space) (inside'.append a.before.2) sign
    simpa [column, Assignment.chars] using alike

theorem rangeColumn_eq {width : Nat} {range : List Char} (nonempty : range ≠ []) (wide : 0 < width) :
    ∃ pad, InLine pad ∧ (rangeColumn width (ofList range)).toList =
      (if hasRangeWord (ofList range) then [' '] else []) ++ (range ++ pad) := by
  have some : (ofList range).isEmpty = false := by simpa using nonempty
  rw [rangeColumn, if_neg (by omega), some, if_neg Bool.false_ne_true]
  split
  · obtain ⟨pad, padding, padded⟩ := exists_pad (width - 1) range
    exact ⟨pad, padding, by simp [toList_padRight, padded]⟩
  · obtain ⟨pad, padding, padded⟩ := exists_pad width range
    exact ⟨pad, padding, by simp [toList_padRight, padded]⟩

theorem marks_parts {last : Char} (reading : Reading m d) (keeps : keepsRange w m = true)
    (room : d.assigned = none ∨ 0 < w.initial) :
    marksFrom feeds last [] (List.replicate (w.type - d.type.chars.length) ' ' ++
        ((rangeColumn w.range (ofList d.range)).toList ++
          ((initialColumn w.initial (d.assigned.map fun a => ofList a.value)).toList ++ ';' :: cs))) =
      marksFrom feeds last [] (d.afterType.1 ++ (d.parts ++ ';' :: cs)) := by
  rw [ObjectText.parts, List.append_assoc, List.append_assoc]
  by_cases none : d.range = []
  · obtain ⟨pad, padding, padded⟩ : ∃ pad, InLine pad ∧ (rangeColumn w.range (ofList d.range)).toList = pad := by
      rw [none, rangeColumn]
      split
      · exact ⟨[], inLine_nil, rfl⟩
      · exact ⟨_, inLine_replicate, toList_spaces w.range⟩
    rw [padded, none, List.nil_append, ← List.append_assoc]
    exact alike_value room (inLine_replicate.append padding) d.afterType.2 d.beforeEnd last [] inLine_nil
  · have some : (ofList d.range).isEmpty = false := by simpa using none
    rw [keepsRange, reading.range, reading.type, reading.joined none] at keeps
    simp only [some, Bool.false_or, Bool.and_eq_true, decide_eq_true_eq, toList_ofList, length_ofList] at keeps
    obtain ⟨pad, padding, column⟩ := rangeColumn_eq none keeps.1
    have value : Alike (pad ++ (_ ++ ';' :: cs)) _ := alike_value room padding inLine_nil d.beforeEnd
    have tail := Alike.text d.single.2 value
    have blank : InLine (if hasRangeWord (ofList d.range) then [' '] else []) := by
      split
      · exact inLine_space
      · exact inLine_nil
    rw [column, List.append_assoc, List.append_assoc, ← List.append_assoc (List.replicate _ ' ')]
    refine tail.respaced (inLine_replicate.append blank) d.afterType.2 fun x head => Or.inr ?_
    obtain ⟨y, rest, form, opens⟩ := d.ranged.resolve_left none
    obtain rfl : y = x := by simpa [form] using head
    rcases opens with rfl | wordy
    · exact Or.inl (not_joins_right (by decide) last)
    · right
      have apart := keeps.2
      simp only [form, head?_cons, any_some, wordy, Bool.not_true, Bool.false_or, beq_iff_eq] at apart
      rw [← form] at apart
      rw [← List.isEmpty_iff, ← List.isEmpty_iff, apart]
      cases hasRangeWord (ofList d.range) <;> simp [Nat.sub_eq_zero_iff_le]

def typeColumns (w : ObjectColumns) (m : Match) : String :=
  padRight w.type (m.named "type") ++ rangeColumn w.range (m.named "range") ++
    initialColumn w.initial (part? m "init_val")

theorem alike_type (reading : Reading m d) (keeps : keepsRange w m = true)
    (room : d.assigned = none ∨ 0 < w.initial) :
    Alike ((typeColumns w m).toList ++ ';' :: cs) (d.type.chars ++ (d.afterType.1 ++ (d.parts ++ ';' :: cs))) := by
  obtain ⟨front, c, form, solid⟩ := exists_last d.type
  have behind : marksFrom feeds c [] (_ ++ (_ ++ (_ ++ ';' :: cs))) = _ := marks_parts reading keeps room
  intro last gap inside
  rw [typeColumns, reading.type, reading.range, reading.value]
  simp only [toList_append, toList_padRight, toList_ofList, padTo, List.append_assoc]
  rw [form] at behind ⊢
  rw [List.append_assoc, List.append_assoc]
  exact marksFrom_keep solid front behind

def objectRowColumns (level : Int) (w : ObjectColumns) (m : Match) : String :=
  tabs level ++ Text.padRight w.qualifier (m.named "qual") ++ " " ++ Text.padRight w.name (Text.trim (m.named "name")) ++
    " : " ++ typeColumns w m

theorem marks_objectRow (level : Int) (reading : Reading m d) (keeps : keepsTokens w m = true) (cs : List Char) :
    marks feeds ((objectRowColumns level w m).toList ++ ';' :: cs) = marks feeds (d.head ++ ';' :: cs) := by
  rw [keepsTokens, reading.qualified, reading.value, Bool.and_eq_true, Bool.and_eq_true] at keeps
  obtain ⟨⟨qualified, ranged⟩, valued⟩ := keeps
  have room : d.assigned = none ∨ 0 < w.initial := by simpa using valued
  obtain ⟨front, c, form, solid⟩ := exists_last d.qualifier
  obtain ⟨trail, whole, blank⟩ := exists_dropBlanksRight d.names
  have trimmed_eq : trimmed d.names = dropBlanksRight d.names := by
    obtain ⟨first, rest, names, wordy⟩ := d.opens
    rw [trimmed, dropBlanks_of_solid]
    intro x head
    obtain rfl : first = x := by simpa [names] using head
    exact isBlank_of_isWord wordy
  have single : '\n' ∉ dropBlanksRight d.names ∧ '\n' ∉ trail := by
    have names := d.single.1
    rw [whole, mem_append, not_or] at names
    exact names
  obtain ⟨pad, padding, padded⟩ := exists_pad w.qualifier d.qualifier.chars
  obtain ⟨pad', padding', padded'⟩ := exists_pad w.name (dropBlanksRight d.names)
  have type : Alike (_ ++ ';' :: cs) _ := alike_type reading ranged room
  have colon := Alike.alone (c := ':') (by decide) (by decide) (padding'.append inLine_space)
    ((inLine_of_blank blank single.2).append d.beforeColon.2) (type.spaced (by decide) inLine_space d.afterColon.2)
  have names : marksFrom feeds c [] _ = _ := (colon.text single.1).respaced (padding.append inLine_space) d.afterQualifier.2
    fun _ _ => Or.inr (Or.inr (by simpa using qualified))
  have row : (objectRowColumns level w m).toList ++ ';' :: cs = (tabs level).toList ++ (front ++ c :: ((pad ++ [' ']) ++
      (dropBlanksRight d.names ++ ((pad' ++ [' ']) ++ ':' :: ([' '] ++ ((typeColumns w m).toList ++ ';' :: cs)))))) := by
    rw [objectRowColumns, reading.qualifier, reading.names]
    simp only [toList_append, toList_padRight, toList_trim_ofList, toList_ofList, padded, trimmed_eq, padded']
    simp [form]
  have line : d.head ++ ';' :: cs = d.lead.1 ++ (front ++ c :: (d.afterQualifier.1 ++ (dropBlanksRight d.names ++
      ((trail ++ d.beforeColon.1) ++ ':' :: (d.afterColon.1 ++ (d.type.chars ++ (d.afterType.1 ++ (d.parts ++ ';' :: cs)))))))) := by
    rw [ObjectText.head, form]
    conv_lhs => rw [whole]
    simp
  rw [row, line, marks_lead feeds_of_mem (isBlank_of_mem_tabs level), marks_lead feeds_of_mem d.lead.2.blank]
  exact marksFrom_keep solid front names

theorem marks_renderObject (level : Int) (single : '\n' ∉ line)
    (keeps : ((Regex.ofNode oneRow objectRow).matchStart? (ofList line)).all (keepsTokens w) = true) :
    marks feeds (renderObject level w (ofList line)).toList = marks feeds line ∨
      ((Regex.ofNode oneRow objectRow).matchStart? (ofList line)).any (·.named? "comment" == some "") = true ∧
        Bared line (renderObject level w (ofList line)).toList := by
  unfold renderObject
  cases found : (Regex.ofNode oneRow objectRow).matchStart? (ofList line) with
  | none => exact Or.inl (by rw [toList_ofList])
  | some m =>
    obtain ⟨d, rfl, reading⟩ := exists_objectText single found
    have row := marks_columns reading.comment d.behindEnd.2 (marks_objectRow level reading (by simpa [found] using keeps))
    simp only [objectRowColumns, typeColumns, ← String.append_assoc] at row
    exact row.imp_right fun lost => ⟨by simp [lost.1], lost.2⟩

end Marks

def textColumns (text : String) : ObjectColumns :=
  objectColumns ((Regex.ofNode blockRows objectRow).matches_ text)

/-- Each line that is read as a declaration keeps its tokens, and in a text with quotes none has an empty comment. -/
def keepsDeclarations (text : String) : Bool :=
  (Text.lines (Text.trim text)).all fun line =>
    let found := (Regex.ofNode oneRow objectRow).matchStart? line
    found.all (keepsTokens (textColumns text)) &&
      !(text.toList.contains '"' && found.any (·.named? "comment" == some ""))

theorem alignObjects_toList (text : String) (level : Int) : (alignObjects text level).toList =
    intercalate ['\n'] ((linesFrom [] (trimmed text.toList)).map
      fun l => (renderObject level (textColumns text) (ofList l)).toList) := by
  have feed : "\n".toList = ['\n'] := rfl
  rw [alignObjects, ← textColumns, Text.join, String.toList_intercalate, lines_trim, List.map_map, List.map_map, feed]
  simp only [Function.comp_def]

end VhdlWorkbench.Layout

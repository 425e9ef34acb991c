import VhdlWorkbench.Proofs.PortClause
import VhdlWorkbench.Proofs.Words

/-!
Entities and components with their layout: the ports whose name begins a line are read.
-/

namespace VhdlWorkbench.Design

open String (ofList)
open Source (blankComments blankComments_plain isPlain_of_isWord isPlain withoutComments)
open Pattern Pattern.Node Declaration List String Text

variable {unit : String} {t r : Thread} {pos : Nat} {after rest : List Char}

/-- The units that have an interface. -/
inductive UnitKind where
  | entity
  | component
deriving DecidableEq, Repr

def UnitKind.word : UnitKind → String
  | .entity => "entity"
  | .component => "component"

/-- A unit with a port clause and the blanks between its tokens. -/
structure UnitLayout where
  kind : UnitKind
  keyword : Keyword kind.word
  beforeName : Space
  name : Identifier
  beforeIs : Space
  is : Keyword "is"
  beforePort : Space
  port : Keyword "port"
  beforeParen : Gap
  first : PortLayout
  others : List PortLayout
  beforeSemicolon : Gap
  beforeEnd : Gap
  ending : Keyword "end"
  /-- What stands between the last word and its semicolon. -/
  closing : List Char
  apart : ∀ c, closing.head? = some c → isWord c = false
  words : ∀ c ∈ closing, isBlank c = true ∨ isWord c = true

namespace UnitLayout

def ports (u : UnitLayout) : List PortLayout :=
  u.first :: u.others

def content (u : UnitLayout) : List Char :=
  u.first.text ++ u.others.flatMap fun p => ';' :: p.text

def foot (u : UnitLayout) : List Char :=
  u.beforeEnd.chars ++ (u.ending.chars ++ (u.closing ++ [';']))

def text (u : UnitLayout) : List Char :=
  u.keyword.chars ++ (u.beforeName.chars ++ (u.name.chars ++ (u.beforeIs.chars ++ (u.is.chars ++
    (u.beforePort.chars ++ (u.port.chars ++ (u.beforeParen.chars ++ '(' :: (u.content ++
      ')' :: (u.beforeSemicolon.chars ++ ';' :: u.foot)))))))))

/-- Every port begins a line. -/
def PortsOpenLines (u : UnitLayout) : Prop :=
  u.first.opensLine true = true ∧ ∀ p ∈ u.others, p.opensLine false = true

instance (u : UnitLayout) : Decidable u.PortsOpenLines :=
  inferInstanceAs (Decidable (_ ∧ _))

/-- The pattern of a unit's name accepts this unit. -/
def Named (u : UnitLayout) (unit : String) : Prop :=
  unit = anyName ∨ unit = ofList u.name.chars

end UnitLayout

def endingNode : Node :=
  lit "end" ++ edge ++ few .any

def unitNode (name : Node) : Node :=
  .capture 1 (some "type") (choice [lit "entity", lit "component"]) ++ gap1 ++
    .capture 2 (some "name") name ++ gap1 ++ lit "is" ++ gap1 ++
    Node.optional (.capture 3 none (lit "generic" ++ gap ++ lit "(" ++
      .capture 4 (some "generic") (few .any) ++ lit ")" ++ gap ++ lit ";" ++ gap)) ++
    Node.optional (.capture 5 none (lit "port" ++ gap ++ lit "(" ++
      .capture 6 (some "port") (few .any) ++ lit ")" ++ gap ++ lit ";")) ++
    gap ++ .capture 7 (some "ending") endingNode ++ lit ";"

def unitRegex (name : Node) : Regex :=
  { node := unitNode name, options := blockOptions, slots := 8,
    names := [("type", 1), ("name", 2), ("generic", 4), ("port", 6), ("ending", 7)] }

theorem build_interfaceForm {u : UnitLayout} (named : u.Named unit) :
    Regex.build blockOptions (interfaceForm unit) = .ok (unitRegex (nameOrAny unit)) := by
  rcases named with rfl | rfl
  · rfl
  · have form := nameOrAny_identifier u.name
    have pasted : (interfaceForm (ofList u.name.chars)).pastedTexts =
        [ofList u.name.chars] := by
      rw [interfaceForm, form]
      rfl
    rw [build_of_wordy pasted (by simpa using u.name.wordy), interfaceForm, form]
    rfl

variable {text : Array Char}

/-- What stands at a place where a port clause may end. -/
structure ClauseEnd (text : Array Char) (pos : Nat) : Prop where
  paren : text[pos]? = some ')'
  unitEnd : ∃ n, (∀ i < n, ∃ c, text[pos + 1 + i]? = some c ∧ isBlank c = true) ∧
    text[pos + 1 + n]? = some ';' ∧
    ∃ l, (∀ i < l, ∃ c, text[pos + 1 + n + 1 + i]? = some c ∧ isBlank c = true) ∧
      wordStandsAt text blockOptions "end".toList (pos + 1 + n + 1 + l) = true ∧
      Anchor.holds text blockOptions .wordEdge (pos + 1 + n + 1 + l + 3) = true

theorem char_of_reaches_mark {word : String} {p : Char} {t' : Thread}
    (reached : Reaches text (lit word) blockOptions t t') (mark : word.toList = [p])
    (low : p.toNat < 65) : text[t.pos]? = some p ∧ t' = { t with pos := t.pos + 1 } := by
  obtain ⟨c, there, accepted⟩ := accepts_of_reaches_lit reached (by rw [mark, head?_cons])
  obtain rfl := (charAccepts_mark low).mp accepted
  have length : word.length = 1 := by rw [← length_toList, mark, List.length_singleton]
  exact ⟨there, length ▸ (reaches_lit reached).2⟩

theorem clauseEnd_of_exec {f : Thread → Thread} {k : Thread → Continuation} (still : ∀ t, (f t).pos = t.pos)
    (success : (exec text (lit ")") blockOptions t fun t => exec text gap blockOptions t fun t =>
      exec text (lit ";") blockOptions t fun t => exec text gap blockOptions (f t) fun t =>
        exec text endingNode blockOptions t (k t)) = some r) : ClauseEnd text t.pos := by
  obtain ⟨_, paren, success⟩ := exec_reaches _ _ _ _ _ success
  obtain ⟨there, rfl⟩ := char_of_reaches_mark paren rfl (by decide)
  obtain ⟨_, ⟨n, -, -, blanks, rfl⟩, success⟩ := exec_reaches _ _ _ _ _ success
  obtain ⟨_, semicolon, success⟩ := exec_reaches _ _ _ _ _ success
  obtain ⟨behind, rfl⟩ := char_of_reaches_mark semicolon rfl (by decide)
  obtain ⟨_, ⟨l, -, -, more, rfl⟩, success⟩ := exec_reaches _ _ _ _ _ success
  obtain ⟨_, ⟨_, ⟨_, word, edge, rfl⟩, -⟩, -⟩ := exec_reaches _ _ _ _ _ success
  obtain ⟨stands, rfl⟩ := reaches_lit word
  simp only [still, accepts_space (o := blockOptions)] at blanks more stands edge
  exact ⟨there, n, blanks, behind, l, more, stands, edge⟩

theorem not_unitEnd_at_port (p : PortLayout) {l : Nat} (here : textFrom text pos = p.text ++ after)
    (blanks : ∀ i < l, ∃ c, text[pos + i]? = some c ∧ isBlank c = true)
    (stands : wordStandsAt text blockOptions "end".toList (pos + l) = true) :
    Anchor.holds text blockOptions .wordEdge (pos + l + 3) ≠ true := by
  intro edge
  obtain ⟨cs, tail, there, pairs⟩ := (wordStandsAt_iff _ _).mp stands
  have length : cs.length = 3 := pairs.length_eq.symm
  have spelled : Spells "end" cs := spells_of_forall₂ (by decide) (by decide) pairs
  have wordy : ∀ c ∈ cs, isWord c = true := fun c member => spelled.wordy (by decide) member
  obtain ⟨c, rest, rfl⟩ : ∃ c rest, cs = c :: rest := by
    cases cs with
    | nil => simp at length
    | cons c rest => exact ⟨c, rest, rfl⟩
  have colon : Stops isWord (':' :: (p.afterName ++ after)) := by
    rintro c ⟨⟩
    decide
  simp only [PortLayout.text, PortLayout.declaration, List.append_assoc, List.cons_append] at here
  -- the blanks before the word are those before the name, so the word is the name
  obtain rfl : l = p.lead.chars.length :=
    run_length_unique here p.lead.blank (p.name.blankless_head _) blanks (head?_of_textFrom there)
      (isBlank_of_isWord (wordy c mem_cons_self))
  rw [← length, wordEdge_behind_iff there (by simp) wordy] at edge
  have same : p.name.chars = c :: rest := by
    rw [← takeWhile_append_of_stop p.name.wordy (p.beforeColon.wordless_head colon),
      ← textFrom_append here, there, takeWhile_append_of_stop wordy edge]
  exact p.unreserved (same ▸ spelled)

theorem PortLayout.semicolon_not_mem (p : PortLayout) : ';' ∉ p.text := by
  have gap (g : Gap) : ';' ∉ g.chars := g.not_mem (by decide)
  have name : ';' ∉ p.name.chars := p.name.not_mem (by decide)
  have direction : ';' ∉ p.written.chars := p.directionName.not_mem (by decide)
  simp [PortLayout.text, PortLayout.declaration, PortLayout.afterName, gap, name, direction, p.type.single]

theorem port_behind_semicolon (first : PortLayout) (others : List PortLayout) {before behind : List Char}
    (split : (first.text ++ others.flatMap fun p => ';' :: p.text) = before ++ ';' :: behind) :
    ∃ (p : PortLayout) (after : List Char), behind = p.text ++ after := by
  induction others generalizing first before with
  | nil =>
    rw [flatMap_nil, append_nil] at split
    exact absurd (split ▸ mem_append_right _ mem_cons_self) first.semicolon_not_mem
  | cons p others ih =>
    rw [flatMap_cons, cons_append] at split
    rcases append_eq_append_iff.mp split with ⟨more, rfl, tail⟩ | ⟨more, text, tail⟩
    · cases more with
      | nil => exact ⟨p, _, (cons.inj tail).2.symm⟩
      | cons c more => exact ih p (cons.inj tail).2
    · cases more with
      | nil => exact ⟨p, _, (cons.inj tail).2⟩
      | cons c more =>
        obtain rfl : ';' = c := (cons.inj tail).1
        exact absurd (text ▸ mem_append_right _ mem_cons_self) first.semicolon_not_mem

theorem not_clauseEnd_in_content (u : UnitLayout) {i : Nat}
    (here : textFrom text pos = u.content ++ ')' :: after) (inside : i < u.content.length) :
    ¬ClauseEnd text (pos + i) := by
  rintro ⟨-, n, blanks, semicolon, l, more, stands, edge⟩
  have close : text[pos + u.content.length]? = some ')' := by
    rw [head?_of_textFrom (textFrom_append here), head?_cons]
  have within : i + 1 + n < u.content.length := by
    by_contra outside
    by_cases last : i + 1 + n = u.content.length
    · rw [show pos + i + 1 + n = pos + u.content.length by omega, close] at semicolon
      exact absurd semicolon (by decide)
    · obtain ⟨c, there, blank⟩ := blanks (u.content.length - (i + 1)) (by omega)
      rw [show pos + i + 1 + (u.content.length - (i + 1)) = pos + u.content.length by omega, close,
        Option.some.injEq] at there
      rw [← there] at blank
      exact absurd blank (by decide)
  rw [show pos + i + 1 + n = pos + (i + 1 + n) by omega, getElem?_of_textFrom here,
    getElem?_append_left within, getElem?_eq_getElem within, Option.some.injEq] at semicolon
  have split := (take_append_drop (i + 1 + n) u.content).symm
  rw [drop_eq_getElem_cons within, semicolon] at split
  obtain ⟨p, tail, port⟩ := port_behind_semicolon u.first u.others split
  have behind : textFrom text (pos + i + 1 + n + 1) = p.text ++ (tail ++ ')' :: after) := by
    rw [show pos + i + 1 + n + 1 = pos + (i + 1 + n + 1) by omega, textFrom_add, here,
      List.drop_append_of_le_length (by omega), port, List.append_assoc]
  exact not_unitEnd_at_port p behind more stands edge

theorem UnitKind.lower (kind : UnitKind) : Lower kind.word := by
  cases kind <;> decide

theorem exec_unitKind {kind : UnitKind} (keyword : Keyword kind.word)
    {k : Continuation} (here : textFrom text t.pos = keyword.chars ++ rest)
    (next : k { t with pos := t.pos + keyword.chars.length } = some r) :
    exec text (choice [lit "entity", lit "component"]) blockOptions t k = some r := by
  have whole : exec text (lit kind.word) blockOptions t k = some r :=
    exec_keyword keyword kind.lower here next
  simp only [choice, exec]
  cases kind with
  | entity => rw [show exec text (lit "entity") blockOptions t k = some r from whole]
  | component =>
    rw [exec_lit_of_keyword (q := 'c') (p := 'e') keyword (UnitKind.lower .component) rfl rfl
      (by decide) (by decide) here]
    exact whole

def unitThread (u : UnitLayout) (t : Thread) : Thread :=
  let name := t.pos + u.keyword.chars.length + u.beforeName.chars.length
  let behindName := name + u.name.chars.length
  let port := behindName + u.beforeIs.chars.length + u.is.chars.length + u.beforePort.chars.length
  let content := port + u.port.chars.length + u.beforeParen.chars.length + 1
  let behindContent := content + u.content.length
  let behindClause := behindContent + 1 + u.beforeSemicolon.chars.length + 1
  let ending := behindClause + u.beforeEnd.chars.length
  let stop := ending + u.ending.chars.length + u.closing.length
  ⟨stop + 1, ((((t.spans.setIfInBounds 1 (some (t.pos, t.pos + u.keyword.chars.length))).setIfInBounds 2
    (some (name, behindName))).setIfInBounds 6 (some (content, behindContent))).setIfInBounds 5
    (some (port, behindClause))).setIfInBounds 7 (some (ending, stop))⟩

theorem exec_foot (u : UnitLayout) {f : Thread → Thread → Thread} {k : Continuation}
    (here : textFrom text t.pos = u.foot ++ rest) (still : ∀ t t', (f t t').pos = t'.pos)
    (next : let ending := t.pos + u.beforeEnd.chars.length
      let stop := ending + u.ending.chars.length + u.closing.length
      k { f { t with pos := ending } { t with pos := stop } with pos := stop + 1 } = some r) :
    (exec text gap blockOptions t fun t => exec text endingNode blockOptions t fun t' =>
      exec text (lit ";") blockOptions (f t t') k) = some r := by
  simp only [UnitLayout.foot, List.append_assoc, List.cons_append, List.nil_append] at here
  have atEnding := textFrom_append here
  have atClosing := textFrom_append atEnding
  have atStop := textFrom_append atClosing
  let word := u.ending.identifier (by decide) (by decide)
  have stops : Stops isWord (u.closing ++ ';' :: rest) := by
    intro c head
    cases letters : u.closing with
    | nil =>
      obtain rfl : ';' = c := by simpa [letters] using head
      decide
    | cons d ds => exact u.apart c (by simpa [letters] using head)
  refine exec_gap u.beforeEnd here (word.blankless_head _) (Nat.zero_le _) ?_
  rw [endingNode, exec_seq, exec_seq]
  refine exec_keyword u.ending (by decide) atEnding ?_
  rw [exec_edge word atEnding stops rfl]
  refine exec_few_of_segment atClosing (fun _ _ => rfl) ?_ ?_
  · intro i inside
    have absent : ';' ∉ u.closing := fun member => absurd (u.words _ member) (by decide)
    exact exec_mark_of_absent (c := ';') rfl (by decide) absent atClosing inside (still _ _)
  · refine exec_mark (c := ';') rfl ((congrArg (textFrom text) (still _ _)).trans atStop) ?_
    rw [still]
    exact next

theorem exec_unit (u : UnitLayout) (named : u.Named unit) (here : textFrom text t.pos = u.text ++ rest) :
    exec text (unitNode (nameOrAny unit)) blockOptions t some = some (unitThread u t) := by
  simp only [UnitLayout.text, List.append_assoc, List.cons_append] at here
  have behindKind := textFrom_append here
  have atName := textFrom_append behindKind
  have behindName := textFrom_append atName
  have atIs := textFrom_append behindName
  have behindIs := textFrom_append atIs
  have atPort := textFrom_append behindIs
  have behindPort := textFrom_append atPort
  have atParen := textFrom_append behindPort
  have atContent := textFrom_cons atParen
  have atClose := textFrom_append atContent
  have behindClose := textFrom_cons atClose
  have atSemicolon := textFrom_append behindClose
  have behindClause := textFrom_cons atSemicolon
  let word := u.is.identifier (by decide) (by decide)
  let port := u.port.identifier (by decide) (by decide)
  have mark {c : Char} (blank : isBlank c = false) (rest : List Char) :
      Stops isBlank (c :: rest) := by
    rintro d ⟨⟩
    exact blank
  simp only [unitNode, exec_seq, exec_capture]
  refine exec_unitKind u.keyword here ?_
  refine exec_gap u.beforeName.toGap behindKind (u.name.blankless_head _)
    (length_pos_iff.mpr u.beforeName.nonempty) ?_
  refine exec_nameOrAny u.name named atName (u.beforeIs.wordless_head _) ?_
  refine exec_gap u.beforeIs.toGap behindName (word.blankless_head _)
    (length_pos_iff.mpr u.beforeIs.nonempty) ?_
  refine exec_keyword u.is (by decide) atIs ?_
  refine exec_gap u.beforePort.toGap behindIs (port.blankless_head _)
    (length_pos_iff.mpr u.beforePort.nonempty) ?_
  refine exec_optional_of_none ?_ ?_
  · exact exec_lit_of_keyword (q := 'p') (p := 'g') u.port (by decide) rfl rfl (by decide) (by decide)
      atPort
  apply exec_optional_of_some
  simp only [exec_seq, exec_capture]
  refine exec_keyword u.port (by decide) atPort ?_
  refine exec_gap u.beforeParen behindPort (mark (by decide) _) (Nat.zero_le _) ?_
  refine exec_mark (c := '(') rfl atParen ?_
  refine exec_few_of_segment atContent (fun _ _ => rfl) ?_ ?_
  · intro i inside
    rw [Option.eq_none_iff_forall_not_mem]
    intro r success
    have ends := clauseEnd_of_exec
      (f := fun s => { s with spans := s.spans.setIfInBounds 5 (some (_, s.pos)) }) (fun _ => rfl) success
    exact not_clauseEnd_in_content u atContent inside ends
  refine exec_mark (c := ')') rfl atClose ?_
  refine exec_gap u.beforeSemicolon behindClose (mark (by decide) _) (Nat.zero_le _) ?_
  refine exec_mark (c := ';') rfl atSemicolon ?_
  refine exec_foot u
    (f := fun t t' => { t' with spans := t'.spans.setIfInBounds 7 (some (t.pos, t'.pos)) })
    behindClause (fun _ _ => rfl) ?_
  simp only [unitThread]

theorem blankComments_gap (g : Gap) (rest : List Char) :
    blankComments (g.chars ++ rest) = g.chars ++ blankComments rest :=
  blankComments_plain (fun c member => Source.isPlain_of_isBlank (g.blank c member)) rest

theorem blankComments_word (name : Identifier) (rest : List Char) :
    blankComments (name.chars ++ rest) = name.chars ++ blankComments rest :=
  blankComments_plain (fun c member => isPlain_of_isWord (name.wordy c member)) rest

theorem blankComments_keyword {word : String} (w : Keyword word) (lower : Lower word) (rest : List Char) :
    blankComments (w.chars ++ rest) = w.chars ++ blankComments rest :=
  blankComments_plain (fun _ member => isPlain_of_isWord (w.spelled.wordy lower member)) rest

theorem blankComments_mark {c : Char} (plain : isPlain c = true) (rest : List Char) :
    blankComments (c :: rest) = c :: blankComments rest :=
  blankComments_plain (show ∀ d ∈ [c], isPlain d = true by simpa using plain) rest

theorem blankComments_port (p : PortLayout)
    (stops : ∀ c, after.head? = some c → (p.type.chars.getLast? = some '-' → c ≠ '-') ∧ c ≠ '*') :
    blankComments (p.text ++ after) = p.text ++ blankComments after := by
  have behindType : ∀ c, (p.tail.chars ++ after).head? = some c →
      (p.type.chars.getLast? = some '-' → c ≠ '-') ∧ c ≠ '*' := by
    intro c head
    cases blanks : p.tail.chars with
    | nil => exact stops c (by simpa [blanks] using head)
    | cons d ds =>
      have member : c ∈ p.tail.chars := by
        obtain rfl : d = c := by simpa [blanks] using head
        simp [blanks]
      refine ⟨fun _ => ?_, ?_⟩ <;> rintro rfl <;> exact p.tail.not_mem (by decide) member
  simp only [PortLayout.text, PortLayout.declaration, PortLayout.afterName, List.append_assoc,
    cons_append, blankComments_gap, blankComments_word, blankComments_mark (c := ':') rfl,
    blankComments_keyword _ p.direction.lower, Source.blankComments_commentFree p.type.free behindType]

theorem blankComments_ports (ports : List PortLayout) (stops : ∀ c, after.head? = some c → c ≠ '-' ∧ c ≠ '*') :
    blankComments (ports.flatMap (fun p => ';' :: p.text) ++ after) =
        ports.flatMap (fun p => ';' :: p.text) ++ blankComments after ∧
      ∀ c, (ports.flatMap (fun p => ';' :: p.text) ++ after).head? = some c → c ≠ '-' ∧ c ≠ '*' := by
  induction ports with
  | nil => exact ⟨rfl, stops⟩
  | cons p ports ih =>
    refine ⟨?_, ?_⟩
    · simp only [List.flatMap_cons, List.cons_append, List.append_assoc, blankComments_mark (c := ';') rfl,
        blankComments_port p fun c head => ⟨fun _ => (ih.2 c head).1, (ih.2 c head).2⟩, ih.1]
    · rintro c ⟨⟩
      decide

theorem blankComments_unit (u : UnitLayout) (rest : List Char) :
    blankComments (u.text ++ rest) = u.text ++ blankComments rest := by
  have paren (after : List Char) : ∀ c, (')' :: after).head? = some c → c ≠ '-' ∧ c ≠ '*' := by
    rintro c ⟨⟩
    decide
  have closing : ∀ c ∈ u.closing, isPlain c = true := fun c member =>
    (u.words c member).elim Source.isPlain_of_isBlank isPlain_of_isWord
  have content (after : List Char) : blankComments (u.content ++ ')' :: after) =
      u.content ++ blankComments (')' :: after) := by
    have more := blankComments_ports u.others (paren after)
    rw [UnitLayout.content, List.append_assoc,
      blankComments_port u.first fun c head => ⟨fun _ => (more.2 c head).1, (more.2 c head).2⟩, more.1, List.append_assoc]
  simp only [UnitLayout.text, UnitLayout.foot, List.append_assoc, List.cons_append, List.nil_append,
    blankComments_keyword u.keyword u.kind.lower, blankComments_keyword u.is (by decide),
    blankComments_keyword u.port (by decide), blankComments_keyword u.ending (by decide),
    blankComments_gap, blankComments_word, blankComments_mark (c := '(') rfl, content,
    blankComments_mark (c := ')') rfl, blankComments_mark (c := ';') rfl,
    blankComments_plain closing]

def unitMatch (text : Array Char) (u : UnitLayout) (pos : Nat) : Match :=
  let t := unitThread u ⟨pos, Array.replicate 8 none⟩
  { source := text, start := pos, stop := t.pos, spans := t.spans,
    names := [("type", 1), ("name", 2), ("generic", 4), ("port", 6), ("ending", 7)] }

theorem search_unit (u : UnitLayout) (named : u.Named unit) (rest : List Char) :
    (unitRegex (nameOrAny unit)).search? (ofList (u.text ++ rest)) =
      some (unitMatch (u.text ++ rest).toArray u 0) := by
  have run := exec_unit (t := ⟨0, Array.replicate 8 none⟩) u named (textFrom_zero (u.text ++ rest))
  rw [Regex.search?, toList_ofList]
  apply Regex.searchFrom_of_matchAt rfl
  simp [unitRegex, Regex.matchAt, run, unitMatch]

/-- What the match of a unit tells about it. -/
structure UnitMatch (u : UnitLayout) (m : Match) : Prop where
  kind : m.named? "type" = some (ofList u.keyword.chars)
  name : m.named? "name" = some (ofList u.name.chars)
  generics : m.named? "generic" = none
  ports : m.named? "port" = some (ofList u.content)

section

variable (u : UnitLayout)
include u

theorem unitMatch_kind (pos : Nat) :
    (unitMatch text u pos).spans[1]? = some (some (pos, pos + u.keyword.chars.length)) := by
  simp [unitMatch, unitThread]

theorem unitMatch_name (pos : Nat) : let name := pos + u.keyword.chars.length + u.beforeName.chars.length
    (unitMatch text u pos).spans[2]? = some (some (name, name + u.name.chars.length)) := by
  simp [unitMatch, unitThread]

theorem unitMatch_generics (pos : Nat) : (unitMatch text u pos).spans[4]? = some none := by
  simp [unitMatch, unitThread]

theorem unitMatch_ports (pos : Nat) :
    let content := pos + u.keyword.chars.length + u.beforeName.chars.length + u.name.chars.length +
      u.beforeIs.chars.length + u.is.chars.length + u.beforePort.chars.length + u.port.chars.length +
      u.beforeParen.chars.length + 1
    (unitMatch text u pos).spans[6]? = some (some (content, content + u.content.length)) := by
  simp [unitMatch, unitThread]

theorem unitMatch_spec (here : textFrom text pos = u.text ++ rest) : UnitMatch u (unitMatch text u pos) := by
  simp only [UnitLayout.text, List.append_assoc, List.cons_append] at here
  have atName := textFrom_append (textFrom_append here)
  have atPort := textFrom_append (textFrom_append (textFrom_append (textFrom_append atName)))
  have atContent := textFrom_cons (textFrom_append (textFrom_append atPort))
  refine ⟨?_, ?_, ?_, ?_⟩
  · exact Match.named?_of_span rfl (unitMatch_kind u pos) rfl here
  · exact Match.named?_of_span rfl (unitMatch_name u pos) rfl atName
  · have slot : (unitMatch text u pos).names.lookup "generic" = some 4 := rfl
    simp [Match.named?, slot, Match.group?, Match.span?, unitMatch_generics]
  · exact Match.named?_of_span rfl (unitMatch_ports u pos) rfl atContent

theorem content_semicolon : u.content ++ [';'] = portTexts u.ports := by
  have more (first : PortLayout) (others : List PortLayout) :
      (first.text ++ others.flatMap fun p => ';' :: p.text) ++ [';'] = portTexts (first :: others) := by
    induction others generalizing first with
    | nil => simp [portTexts]
    | cons p others ih =>
      rw [portTexts, ← ih p]
      simp
  exact more u.first u.others

/-- The interface of a unit has the ports whose name begins a line. -/
theorem interface_of_written {source : String} (named : u.Named unit)
    (written : withoutComments source = ofList (u.text ++ rest)) :
    ∃ r, interface? source unit = .ok (some r) ∧
      r.name = ofList u.name.chars ∧ r.kind = ofList u.keyword.chars ∧ r.generics = [] ∧
      r.ports.map portFacts = (linePorts true u.ports).map PortLayout.facts := by
  have nonempty : u.content ≠ [] := by
    simp [UnitLayout.content, PortLayout.text, PortLayout.declaration]
  obtain ⟨ports, read, reports⟩ := clause_of_ports u.ports nonempty (content_semicolon u)
  have found := search_unit u named rest
  have parts := unitMatch_spec u (textFrom_zero (u.text ++ rest))
  refine ⟨{ name := ofList u.name.chars, kind := ofList u.keyword.chars, ports }, ?_, rfl,
    rfl, rfl, reports⟩
  rw [interface?, build_interfaceForm named, written]
  simp only [orFault, Except.mapError, bind, Except.bind, found, parts.generics, parts.ports, read,
    Match.named, parts.name, parts.kind]
  rfl

theorem interface_of_layout (named : u.Named unit) (rest : List Char) :
    ∃ r, interface? (ofList (u.text ++ rest)) unit = .ok (some r) ∧
      r.name = ofList u.name.chars ∧ r.kind = ofList u.keyword.chars ∧ r.generics = [] ∧
      r.ports.map portReport = (linePorts true u.ports).map PortLayout.entry := by
  have clean : withoutComments (ofList (u.text ++ rest)) =
      ofList (u.text ++ blankComments rest) := by
    rw [withoutComments, toList_ofList, blankComments_unit]
  obtain ⟨r, found, name, kind, generics, facts⟩ := interface_of_written u named clean
  have reports := congrArg (map fun facts => facts.2.2.2) facts
  rw [List.map_map, List.map_map] at reports
  exact ⟨r, found, name, kind, generics, reports⟩

end

theorem linePorts_false (ports : List PortLayout) : linePorts false ports = ports.filter (·.opensLine false) := by
  induction ports with
  | nil => rfl
  | cons p ports ih => simp only [linePorts, filter_cons, ih]

theorem linePorts_sublist (first : Bool) (ports : List PortLayout) : (linePorts first ports).Sublist ports := by
  cases ports with
  | nil => exact .slnil
  | cons p ports =>
    have rest : (linePorts false ports).Sublist ports := by
      rw [linePorts_false]
      exact filter_sublist
    unfold linePorts
    split
    · exact rest.cons_cons p
    · exact rest.cons p

theorem entries_complete_iff (u : UnitLayout) :
    (linePorts true u.ports).map PortLayout.entry = u.ports.map PortLayout.entry ↔ u.PortsOpenLines := by
  constructor
  · intro complete
    have whole : linePorts true u.ports = u.ports :=
      (linePorts_sublist true u.ports).eq_of_length (by simpa using congrArg List.length complete)
    simp only [UnitLayout.ports, linePorts, linePorts_false] at whole
    split at whole
    · next opens =>
      exact ⟨opens, filter_eq_self.mp (cons.inj whole).2⟩
    · have short := length_filter_le (·.opensLine false) u.others
      rw [whole, length_cons] at short
      omega
  · rintro ⟨opens, others⟩
    rw [UnitLayout.ports, linePorts, if_pos opens, linePorts_false, filter_eq_self.mpr others]

/-- Two layouts of one list of ports give the same reports where they lose the same ports. A layout loses
no port exactly if every port begins a line. -/
theorem port_reports_agree_iff (u v : UnitLayout) {unit unit' : String} (named : u.Named unit)
    (named' : v.Named unit') (rest rest' : List Char)
    (same : u.ports.map PortLayout.entry = v.ports.map PortLayout.entry) :
    ∃ r s, interface? (ofList (u.text ++ rest)) unit = .ok (some r) ∧
      interface? (ofList (v.text ++ rest')) unit' = .ok (some s) ∧
      (r.ports.map portReport = u.ports.map PortLayout.entry ↔ u.PortsOpenLines) ∧
      (s.ports.map portReport = u.ports.map PortLayout.entry ↔ v.PortsOpenLines) ∧
      (r.ports.map portReport = s.ports.map portReport ↔
        (linePorts true u.ports).map PortLayout.entry = (linePorts true v.ports).map PortLayout.entry) := by
  obtain ⟨r, found, -, -, -, reports⟩ := interface_of_layout u named rest
  obtain ⟨s, found', -, -, -, reports'⟩ := interface_of_layout v named' rest'
  refine ⟨r, s, found, found', ?_, ?_, ?_⟩
  · rw [reports, entries_complete_iff]
  · rw [reports', same, entries_complete_iff]
  · rw [reports, reports']

def samplePort (lead : Gap) (name : Char) (wordy : isWord name = true) : PortLayout where
  lead := lead
  name := ⟨[name], by simp, by simpa using wordy⟩
  unreserved := fun spelled => absurd spelled.length_eq (show ¬1 = 3 by decide)
  beforeColon := oneSpace.toGap
  afterColon := oneSpace.toGap
  direction := .input
  written := ⟨['i', 'n'], by decide⟩
  beforeType := oneSpace
  type :=
    { chars := ['b', 'i', 't']
      nonempty := by decide
      opens := by rintro c ⟨⟩; decide
      closes := by rintro c ⟨⟩; decide
      single := by decide
      colons := fun i colon => absurd (mem_of_getElem? colon) (by decide)
      free := by decide
      balanced := by decide
      unreserved := by decide }
  tail := noGap

def sampleUnit (before between : Gap) : UnitLayout where
  kind := .entity
  keyword := ⟨['e', 'n', 't', 'i', 't', 'y'], by decide⟩
  beforeName := oneSpace
  name := ⟨['e'], by decide, by decide⟩
  beforeIs := oneSpace
  is := ⟨['i', 's'], by decide⟩
  beforePort := oneSpace
  port := ⟨['p', 'o', 'r', 't'], by decide⟩
  beforeParen := noGap
  first := samplePort before 'a' (by decide)
  others := [samplePort between 'b' (by decide)]
  beforeSemicolon := noGap
  beforeEnd := oneSpace.toGap
  ending := ⟨['e', 'n', 'd'], by decide⟩
  closing := []
  apart := by simp
  words := by simp

def indentedLine : Gap where
  chars := ['\n', ' ', ' ']
  blank := by decide

theorem port_reports_agree_iff_sample :
    (sampleUnit newLine newLine).Named "e" ∧ (sampleUnit indentedLine newLine).Named anyName ∧
      ∃ r s, interface? (ofList ((sampleUnit newLine newLine).text ++ [])) "e" = .ok (some r) ∧
        interface? (ofList ((sampleUnit indentedLine newLine).text ++ ['-', '-'])) anyName =
          .ok (some s) ∧
        r.ports.map portReport = (sampleUnit newLine newLine).ports.map PortLayout.entry ∧
        s.ports.map portReport ≠ r.ports.map portReport := by
  have named : (sampleUnit newLine newLine).Named "e" := Or.inr rfl
  have named' : (sampleUnit indentedLine newLine).Named anyName := Or.inl rfl
  obtain ⟨r, s, found, found', complete, lost, -⟩ :=
    port_reports_agree_iff (sampleUnit newLine newLine) (sampleUnit indentedLine newLine) named named' []
      ['-', '-'] rfl
  have reports := complete.mpr (by decide)
  refine ⟨named, named', r, s, found, found', reports, ?_⟩
  rw [reports, ne_eq, lost]
  decide

/-- A port that is indented is not reported. -/
theorem indented_port_not_reported :
    ∃ r s, interface? "entity e is port(\na : in bit;\nb : in bit); end;" "e" = .ok (some r) ∧
      interface? "entity e is port(\n  a : in bit;\nb : in bit); end;" "e" = .ok (some s) ∧
      r.ports.map portReport = [("a", some "in", some "bit"), ("b", some "in", some "bit")] ∧
      s.ports.map portReport = [("b", some "in", some "bit")] := by
  obtain ⟨r, found, -, -, -, reports⟩ :=
    interface_of_layout (sampleUnit newLine newLine) (Or.inr rfl : UnitLayout.Named _ "e") []
  obtain ⟨s, found', -, -, -, reports'⟩ :=
    interface_of_layout (sampleUnit indentedLine newLine) (Or.inr rfl) []
  exact ⟨r, s, found, found', reports, reports'⟩

end VhdlWorkbench.Design

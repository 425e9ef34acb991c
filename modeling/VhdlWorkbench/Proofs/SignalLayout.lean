import VhdlWorkbench.Proofs.FormOpenings
import VhdlWorkbench.Proofs.NameList

/-!
Signal declarations with their layout, and when the pattern of signals matches them.
-/

namespace VhdlWorkbench.Design

open String (ofList)
open Pattern Pattern.Node Declaration List Text

/-- The text of a type from its first character that is not blank up to the semicolon. -/
structure TypeMark where
  chars : List Char
  nonempty : chars ≠ []
  opens : ∀ c, chars.head? = some c → isBlank c = false
  single : ';' ∉ chars
  unreserved : ¬Spells "entity" chars ∧ ¬Spells "architecture" chars

/-- A declaration of signals up to its semicolon. -/
structure SignalLayout where
  keyword : Keyword "signal"
  afterWord : Space
  listed : NameList
  afterColon : Gap
  type : TypeMark

namespace SignalLayout

def behindWord (s : SignalLayout) : List Char :=
  s.listed.text ++ ':' :: (s.afterColon.chars ++ s.type.chars)

def text (s : SignalLayout) : List Char :=
  s.keyword.chars ++ (s.afterWord.chars ++ s.behindWord)

def word (s : SignalLayout) : Identifier :=
  s.keyword.identifier (by decide) (by decide)

end SignalLayout

def bitSignals (listed : NameList) : SignalLayout where
  keyword := ⟨"signal".toList, by decide⟩
  afterWord := oneSpace
  listed := listed
  afterColon := oneSpace.toGap
  type :=
    { chars := "bit".toList
      nonempty := by decide
      opens := by rintro c ⟨⟩; decide
      single := by decide
      unreserved := by decide }

def bitPair : SignalLayout :=
  bitSignals ⟨⟨"a".toList, by decide, by decide⟩, noGap,
    [⟨oneSpace.toGap, ⟨"b".toList, by decide, by decide⟩, oneSpace.toGap⟩]⟩

def signalRegex : Regex :=
  Regex.ofNode lineOptions (signalForm identifierList)

/-- The pattern of declared objects around a pattern of their names, which has further groups. -/
def objectRegex (names : Node) (groups : Nat) : Regex where
  node := start ++ gap ++ .capture 1 (some "tag") (choice [lit "signal", lit "variable"]) ++ blank ++
    .capture 2 (some "name") names ++ lit ":" ++ gap ++ .capture (groups + 3) (some "type") (many1 notSemicolon)
  options := lineOptions
  slots := groups + 4
  names := [("tag", 1), ("name", 2), ("type", groups + 3)]

def signalNames : Node :=
  identifier ++ edge ++ Node.optional (.capture 3 none (many1 listChar))

variable {text : Array Char} {pos : Nat} {rest : List Char} {t t' r : Thread} {k : Continuation}

/-- The pattern of signals matches only where a line opens with one of its words, one blank and a name. -/
theorem signalStart_of_matchAt {m : Match} (found : signalRegex.matchAt text pos false = some m) :
    LineStart text pos ∧ ∃ (g : Gap) (w : Identifier) (b c : Char) (rest : List Char),
      (∃ word ∈ objectWords, Reads word w.chars) ∧ isBlank b = true ∧ isWord c = true ∧
        textFrom text pos = g.chars ++ (w.chars ++ b :: c :: rest) := by
  obtain ⟨_, _, ⟨_, toWord, last⟩, _, listed, -⟩ :=
    Regex.matchAt_front (r := Regex.ofNode lineOptions (signalForm identifierList)) 3 found
  obtain ⟨_, first⟩ := listed.front 2
  obtain ⟨line, g, w, ⟨word, member, reads⟩, here⟩ := reaches_tag rfl reads_objectWord toWord
  obtain ⟨b, blank, atBlank, -⟩ := reaches_blank last
  obtain ⟨name, behind, -⟩ := reaches_identifier first
  obtain ⟨c, cs, split⟩ := exists_cons_of_ne_nil name.nonempty
  obtain ⟨lower, letters⟩ := objectWords_lower word member
  rw [atBlank, behind, split] at here
  exact ⟨line, g, reads.identifier lower letters, b, c, _, ⟨word, member, reads⟩, blank,
    name.wordy c (by simp [split]), here⟩

theorem matchAt_of_wide (s : SignalLayout) (g : Gap) (wide : s.afterWord.chars.length ≠ 1)
    (here : textFrom text pos = g.chars ++ (s.text ++ rest)) : signalRegex.matchAt text pos false = none := by
  cases found : signalRegex.matchAt text pos false with
  | none => rfl
  | some m =>
    obtain ⟨-, g', w, b, c, cs, -, blank, wordy, there⟩ := signalStart_of_matchAt found
    obtain ⟨d, e, blanks, split⟩ : ∃ d e blanks, s.afterWord.chars = d :: e :: blanks := by
      match blanks : s.afterWord.chars, s.afterWord.nonempty, wide with
      | d :: e :: rest, _, _ => exact ⟨d, e, rest, rfl⟩
    have second : isBlank e = true := s.afterWord.blank e (by simp [split])
    have stops : ∀ x, (b :: c :: cs).head? = some x → isWord x = false := by
      rintro x ⟨⟩
      exact isWord_of_isBlank blank
    simp only [SignalLayout.text, append_assoc] at here
    -- the blanks before the word and the word itself can be cut off in one way only
    obtain ⟨-, same⟩ := cut_unique (p := isBlank) (here.symm.trans there) g.blank
      (s.word.blankless_head _) g'.blank (w.blankless_head _)
    obtain ⟨-, same⟩ := cut_unique (p := isWord) same s.word.wordy (s.afterWord.wordless_head _)
      w.wordy stops
    rw [split] at same
    obtain ⟨-, same⟩ := cons.inj same
    obtain ⟨rfl, -⟩ := cons.inj same
    rw [isWord_of_isBlank second] at wordy
    exact absurd wordy Bool.false_ne_true

theorem exec_objectWord (w : Keyword "signal") (here : textFrom text t.pos = w.chars ++ rest)
    (next : k { t with pos := t.pos + w.chars.length } = some r) :
    exec text (choice [lit "signal", lit "variable"]) lineOptions t k = some r := by
  simp only [choice, exec]
  rw [exec_keyword w (by decide) here next]

theorem exec_typeMark (type : TypeMark) (here : textFrom text t.pos = type.chars ++ ';' :: rest)
    (next : k { t with pos := t.pos + type.chars.length } = some r) :
    exec text (many1 notSemicolon) lineOptions t k = some r := by
  refine exec_run_of_segment here ?_ ?_ (length_pos_iff.mpr type.nonempty) next
  · intro c member
    rw [notSemicolon_accepts_iff]
    rintro rfl
    exact type.single member
  · rintro c ⟨⟩
    decide

theorem TypeMark.blankless_head (type : TypeMark) (rest : List Char) :
    Stops isBlank (type.chars ++ rest) := by
  intro c head
  rw [head?_append_of_ne_nil _ type.nonempty] at head
  exact type.opens c head

/-- A pattern takes the names at a place and sets none of the groups around it. -/
def TakesNames (names : Node) (text : Array Char) (pos : Nat) (listed : List Char) : Prop :=
  ∀ spans, ∃ spans', spans'.size = spans.size ∧ spans'[1]? = spans[1]? ∧ ∀ k r,
    k ⟨pos + listed.length, spans'⟩ = some r → exec text names lineOptions ⟨pos, spans⟩ k = some r

theorem exists_objectMatch (s : SignalLayout) (g : Gap) {names : Node} {groups : Nat} {b : Char} {listed : List Char}
    (blank : isBlank b = true) (here : textFrom text pos = g.chars ++ (s.keyword.chars ++ b :: (listed ++ ':' ::
      (s.afterColon.chars ++ (s.type.chars ++ ';' :: rest))))) (line : LineStart text pos)
    (takes : TakesNames names text (pos + g.chars.length + s.keyword.chars.length + 1) listed) :
    ∃ m, (objectRegex names groups).matchAt text pos false = some m ∧
      m.stop = pos + g.chars.length + s.keyword.chars.length + 1 + listed.length + 1 + s.afterColon.chars.length +
        s.type.chars.length ∧ m.names = [("tag", 1), ("name", 2), ("type", groups + 3)] ∧
      m.named? "tag" = some (ofList s.keyword.chars) ∧ m.named? "name" = some (ofList listed) ∧
      m.named? "type" = some (ofList s.type.chars) := by
  have inside := lt_size_of_textFrom here (by simp)
  have atWord := textFrom_append here
  have behindWord := textFrom_append atWord
  have atNames := textFrom_cons behindWord
  have atColon := textFrom_append atNames
  have behindColon := textFrom_cons atColon
  have atType := textFrom_append behindColon
  obtain ⟨spans, size, tag, run⟩ := takes ((Array.replicate (groups + 4) none).setIfInBounds 1
    (some (pos + g.chars.length, pos + g.chars.length + s.keyword.chars.length)))
  apply Exists.intro
  apply And.intro
  · apply Regex.matchAt_of_exec rfl (Nat.le_of_lt inside)
    simp only [objectRegex, exec_seq, exec_capture]
    rw [start, exec_anchor_of_holds ((lineStart_holds_iff rfl pos).mpr line)]
    apply exec_gap g here (s.word.blankless_head _) (Nat.zero_le _)
    apply exec_objectWord s.keyword atWord
    apply exec_blank behindWord blank
    apply run _ _
    apply exec_mark (c := ':') rfl atColon
    apply exec_gap s.afterColon behindColon (s.type.blankless_head _) (Nat.zero_le _)
    exact exec_typeMark s.type atType rfl
  · refine ⟨rfl, rfl, Match.named?_of_span rfl ?_ rfl atWord, Match.named?_of_span rfl ?_ rfl atNames,
      Match.named?_of_span rfl ?_ rfl atType⟩
    · simpa using tag
    · simp [size]
    · simp [size]

/-- What the match of a declaration tells about it. -/
structure SignalMatch (s : SignalLayout) (stop : Nat) (m : Match) : Prop where
  narrow : s.afterWord.chars.length = 1
  moves : m.start < m.stop
  stop : m.stop = stop
  text : ∃ g : Gap, m.text = ofList (g.chars ++ s.text)
  names : m.names = [("tag", 1), ("name", 2), ("type", 4)]
  tag : m.named? "tag" = some (ofList s.keyword.chars)
  name : m.named? "name" = some (ofList s.listed.text)
  type : m.named? "type" = some (ofList s.type.chars)

theorem takesNames_signal {l : NameList} (here : textFrom text pos = l.text ++ ':' :: rest) :
    TakesNames signalNames text pos l.text := by
  rw [NameList.text, append_assoc] at here
  intro spans
  refine ⟨_, spansBehindName_size 3 l.first l.more ⟨pos, spans⟩, ?_, fun k r next => ?_⟩
  · unfold spansBehindName
    split <;> simp
  · refine exec_identifierList 3 l.first l.more_listed l.more_wordless_head here ?_
    rwa [NameList.text, length_append, ← Nat.add_assoc] at next

/-- A declaration that opens a line is matched if one blank stands behind its word. -/
theorem exists_signalMatch (s : SignalLayout) (g : Gap) (narrow : s.afterWord.chars.length = 1)
    (here : textFrom text pos = g.chars ++ (s.text ++ ';' :: rest)) (line : LineStart text pos) :
    ∃ m, signalRegex.matchAt text pos false = some m ∧
      SignalMatch s (pos + g.chars.length + s.text.length) m := by
  obtain ⟨b, single⟩ := length_eq_one_iff.mp narrow
  have blank : isBlank b = true := s.afterWord.blank b (by simp [single])
  have parts := here
  simp only [SignalLayout.text, SignalLayout.behindWord, single, append_assoc, cons_append, nil_append] at parts
  have takes := takesNames_signal (textFrom_cons (textFrom_append (textFrom_append parts)))
  obtain ⟨m, found, stop, names, tag, name, type⟩ := exists_objectMatch s g blank parts line takes
  have length : m.stop = pos + (g.chars ++ s.text).length := by
    simp only [stop, SignalLayout.text, SignalLayout.behindWord, length_append, length_cons, narrow]
    omega
  have whole := segment_of_textFrom (show _ = (g.chars ++ s.text) ++ _ by rw [here, append_assoc])
  refine ⟨m, found, narrow, ?_, by rw [length, length_append, Nat.add_assoc], ⟨g, ?_⟩, names, tag, name, type⟩
  · rw [Regex.matchAt_start found]
    exact Regex.stop_gt_of_matchAt (by decide) found
  · rw [Match.text, length, Regex.matchAt_start found]
    obtain ⟨t, -, rfl⟩ := Regex.matchAt_reaches found
    exact congrArg ofList whole

end VhdlWorkbench.Design

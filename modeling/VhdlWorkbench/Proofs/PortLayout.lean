import VhdlWorkbench.Design.Interface
import VhdlWorkbench.Proofs.Texts
import VhdlWorkbench.Proofs.Tokens

/-!
Port clauses with their layout, and the matches in them.
-/

namespace VhdlWorkbench.Design

open Pattern Pattern.Node Declaration List Text
open String (ofList)
open Option (some)

variable {t : Thread} {pos : Nat} {cs after : List Char}

/-- The directions of ports. -/
inductive Direction where
  | input
  | output
  | both
deriving DecidableEq, Repr

def Direction.word : Direction → String
  | .input => "in"
  | .output => "out"
  | .both => "inout"

/-- Every colon of the text begins the mark of an initial value. -/
def AssignColons (cs : List Char) : Prop :=
  ∀ i, cs[i]? = some ':' → cs[i + 1]? = some '='

/-- The text of a type, from its first character that is not blank to its last. -/
structure TypeText where
  chars : List Char
  nonempty : chars ≠ []
  opens : ∀ c, chars.head? = some c → isBlank c = false
  closes : ∀ c, chars.getLast? = some c → isBlank c = false
  single : ';' ∉ chars
  colons : AssignColons chars
  free : Source.commentFree chars = true
  balanced : chars.count ')' ≤ chars.count '('
  unreserved : ¬Spells "entity" chars ∧ ¬Spells "architecture" chars

/-- A port with the blanks between its tokens; the words of the language may be in either case. -/
structure PortLayout where
  lead : Gap
  name : Identifier
  unreserved : ¬Spells "end" name.chars
  beforeColon : Gap
  afterColon : Gap
  direction : Direction
  written : Keyword direction.word
  beforeType : Space
  type : TypeText
  tail : Gap

namespace PortLayout

def afterName (p : PortLayout) : List Char :=
  p.afterColon.chars ++ (p.written.chars ++ (p.beforeType.chars ++ (p.type.chars ++ p.tail.chars)))

def declaration (p : PortLayout) : List Char :=
  p.name.chars ++ (p.beforeColon.chars ++ ':' :: p.afterName)

def text (p : PortLayout) : List Char :=
  p.lead.chars ++ p.declaration

/-- The name begins a line; `first` tells that the port begins its clause. -/
def opensLine (first : Bool) (p : PortLayout) : Bool :=
  match p.lead.chars.getLast? with
  | none => first
  | some c => c == '\n'

end PortLayout

def linePorts : Bool → List PortLayout → List PortLayout
  | _, [] => []
  | first, p :: rest =>
    if p.opensLine first then p :: linePorts false rest else linePorts false rest

def portTexts : List PortLayout → List Char
  | [] => []
  | p :: rest => p.text ++ ';' :: portTexts rest

def portRegex : Regex :=
  Regex.ofNode lineOptions (portForm identifierList)

def portNode : Node :=
  start ++ .capture 1 (some "name")
      (identifier ++ edge ++ Node.optional (.capture 2 none (many1 listChar))) ++
    lit ":" ++ gap ++ .capture 3 (some "port") (choice [lit "in", lit "out", lit "inout"]) ++ gap1 ++
    .capture 4 (some "type") (many1 notSemicolon)

theorem portRegex_eq : portRegex =
      { node := portNode, options := lineOptions, slots := 5,
        names := [("name", 1), ("port", 3), ("type", 4)] } :=
  rfl

variable {text : Array Char}

/-- What stands at a place where the pattern of ports matches. -/
structure PortStart (text : Array Char) (pos : Nat) : Prop where
  line : pos = 0 ∨ text[pos - 1]? = some '\n'
  wordy : ∃ c, text[pos]? = some c ∧ isWord c = true
  colon : ∃ n, (∀ i < n, ∃ c, text[pos + i]? = some c ∧
      (isBlank c = true ∨ isWord c = true ∨ c = ',')) ∧
    text[pos + n]? = some ':' ∧
    ∃ k, (∀ i < k, ∃ c, text[pos + n + 1 + i]? = some c ∧ isBlank c = true) ∧
      ∃ c, text[pos + n + 1 + k]? = some c ∧
        (charAccepts lineOptions 'i' c = true ∨ charAccepts lineOptions 'o' c = true)

theorem reaches_identifierList {t' : Thread}
    (reached : Reaches text (identifier ++ edge ++ Node.optional (.capture 2 none (many1 listChar)))
      lineOptions t t') : (∃ c, text[t.pos]? = some c ∧ isWord c = true) ∧
      ∃ n, t'.pos = t.pos + n ∧ ∀ i < n, ∃ c, text[t.pos + i]? = some c ∧
        (isBlank c = true ∨ isWord c = true ∨ c = ',') := by
  obtain ⟨_, ⟨_, ⟨n, enough, -, taken, rfl⟩, -, rfl⟩, rounds, -, most, more⟩ := reached
  simp only [accepts_word (o := lineOptions)] at taken
  refine ⟨by simpa using taken 0 enough, ?_⟩
  have wordy : ∀ i < n, ∃ c, text[t.pos + i]? = some c ∧
      (isBlank c = true ∨ isWord c = true ∨ c = ',') := by
    intro i inside
    obtain ⟨c, there, accepted⟩ := taken i inside
    exact ⟨c, there, Or.inr (Or.inl accepted)⟩
  have few := most 1 rfl
  obtain rfl | rfl : rounds = 0 ∨ rounds = 1 := by omega
  · obtain rfl := more
    exact ⟨n, rfl, wordy⟩
  · obtain ⟨_, ⟨_, ⟨l, -, -, listed, rfl⟩, rfl⟩, rfl⟩ := more
    refine ⟨n + l, by simp [Nat.add_assoc], ?_⟩
    intro i inside
    by_cases early : i < n
    · exact wordy i early
    · obtain ⟨c, there, accepted⟩ := listed (i - n) (by omega)
      refine ⟨c, ?_, (listChar_accepts_iff c).mp accepted⟩
      rwa [show t.pos + n + (i - n) = t.pos + i by omega] at there

/-- The pattern of ports matches only where a line begins with a list of names, a colon and a direction. -/
theorem portStart_of_matchAt {m : Match} (found : portRegex.matchAt text pos false = some m) : PortStart text pos := by
  rw [portRegex_eq] at found
  obtain ⟨_, _, toBlanks, ⟨_, direction, -⟩⟩ := Regex.matchAt_front 2 found
  obtain ⟨_, toColon, ⟨k, -, -, blanks, rfl⟩⟩ := reaches_seq toBlanks
  obtain ⟨_, toNames, colon⟩ := reaches_seq toColon
  obtain ⟨_, ⟨line, rfl⟩, ⟨_, names, rfl⟩⟩ := reaches_seq toNames
  obtain ⟨wordy, n, stop, listed⟩ := reaches_identifierList names
  obtain ⟨c, there, accepted⟩ := accepts_of_reaches_lit colon rfl
  obtain rfl := (charAccepts_mark (by decide)).mp accepted
  obtain ⟨-, rfl⟩ := reaches_lit colon
  simp only [stop, accepts_space (o := lineOptions)] at there blanks direction
  refine ⟨(lineStart_holds_iff rfl pos).mp line, wordy, n, listed, there, k, blanks, ?_⟩
  rcases direction with input | output | both
  · obtain ⟨d, here, letter⟩ := accepts_of_reaches_lit input rfl
    exact ⟨d, here, Or.inl letter⟩
  · obtain ⟨d, here, letter⟩ := accepts_of_reaches_lit output rfl
    exact ⟨d, here, Or.inr letter⟩
  · obtain ⟨d, here, letter⟩ := accepts_of_reaches_lit both rfl
    exact ⟨d, here, Or.inl letter⟩

/-- The parts of a match of the pattern of ports: a list of names with a colon behind it. -/
structure PortParts (m : Match) (listed rest : List Char) : Prop where
  names : m.names = [("name", 1), ("port", 3), ("type", 4)]
  name : m.named? "name" = some (ofList listed)
  text : m.text = ofList (listed ++ ':' :: rest)
  wordy : ∃ c, listed.head? = some c ∧ isWord c = true

theorem reaches_direction {t' : Thread}
    (reached : Reaches text (choice [lit "in", lit "out", lit "inout"]) lineOptions t t') :
    t.pos ≤ t'.pos ∧ t'.spans = t.spans := by
  rcases reached with input | output | both
  · rw [(reaches_lit input).2]
    exact ⟨Nat.le_add_right _ _, rfl⟩
  · rw [(reaches_lit output).2]
    exact ⟨Nat.le_add_right _ _, rfl⟩
  · rw [(reaches_lit both).2]
    exact ⟨Nat.le_add_right _ _, rfl⟩

theorem portParts_of_matchAt {nonempty : Bool} {m : Match}
    (found : portRegex.matchAt text pos nonempty = some m) : ∃ listed rest, PortParts m listed rest := by
  obtain ⟨t, whole, rfl⟩ := Regex.matchAt_reaches found
  simp only [portRegex_eq, portNode] at whole
  obtain ⟨_, toType, _, ⟨l, -, -, -, rfl⟩, rfl⟩ := reaches_seq whole
  obtain ⟨_, toGap, j, -, -, -, rfl⟩ := reaches_seq toType
  obtain ⟨_, toDirection, u, direction, rfl⟩ := reaches_seq toGap
  obtain ⟨_, toBlanks, k, -, -, -, rfl⟩ := reaches_seq toDirection
  obtain ⟨_, toNames, colon⟩ := reaches_seq toBlanks
  obtain ⟨_, ⟨-, rfl⟩, w, names, rfl⟩ := reaches_seq toNames
  have size : w.spans.size = 5 := Reaches.spans_size names
  obtain ⟨⟨c, first, wordy⟩, n, stop, -⟩ := reaches_identifierList names
  obtain ⟨d, there, accepted⟩ := accepts_of_reaches_lit (p := ':') colon rfl
  obtain rfl := (charAccepts_mark (by decide)).mp accepted
  obtain ⟨-, rfl⟩ := reaches_lit colon
  obtain ⟨later, kept⟩ := reaches_direction direction
  simp only at first stop there later kept
  rw [stop] at there
  obtain ⟨listed, split, rfl⟩ : ∃ listed,
      textFrom text pos = listed ++ ':' :: textFrom text (pos + n + 1) ∧ listed.length = n := by
    refine ⟨(textFrom text pos).take n, ?_, ?_⟩
    · rw [← textFrom_of_getElem? there, textFrom_add, take_append_drop]
    · obtain ⟨bound, -⟩ := Array.getElem?_eq_some_iff.mp there
      rw [length_take, textFrom_length]
      omega
  obtain ⟨r, length⟩ : ∃ r, u.pos + j + l = pos + (listed.length + (r + 1)) := by
    have behind : w.pos + 1 ≤ u.pos := Nat.le_trans (Nat.le_add_right _ k) later
    exact ⟨u.pos + j + l - (pos + listed.length + 1), by omega⟩
  have span : ((u.spans.setIfInBounds 3 (some (w.pos + 1 + k, u.pos))).setIfInBounds 4
      (some (u.pos + j, u.pos + j + l)))[0 + 1]? = some (some (pos, w.pos)) := by
    rw [kept]
    simp [size]
  refine ⟨listed, (textFrom text (pos + listed.length + 1)).take r, rfl,
    Match.named?_of_span rfl span stop split, ?_, c, ?_, wordy⟩
  · simp only [Match.text, segment_eq_take, length, Nat.add_sub_cancel_left, split]
    rw [take_append, take_of_length_le (Nat.le_add_right _ _), Nat.add_sub_cancel_left,
      take_succ_cons]
  · rw [head?_of_textFrom split] at first
    cases listed with
    | nil =>
      obtain rfl := Option.some.inj first
      exact absurd wordy (by decide)
    | cons d ds => exact first

theorem matchAt_eq_none (absent : ¬PortStart text pos) : portRegex.matchAt text pos false = none := by
  cases found : portRegex.matchAt text pos false with
  | none => rfl
  | some m => exact absurd (portStart_of_matchAt found) absent

theorem not_portStart_of_mark {c : Char} (there : text[pos]? = some c)
    (mark : isWord c = false) : ¬PortStart text pos := by
  rintro ⟨-, ⟨d, found, wordy⟩, -⟩
  obtain rfl := Option.some.inj (there.symm.trans found)
  rw [mark] at wordy
  exact Bool.false_ne_true wordy

theorem not_portStart_of_before {c : Char} (there : text[pos]? = some c)
    (inline : c ≠ '\n') : ¬PortStart text (pos + 1) := by
  rintro ⟨first | newline, -, -⟩
  · omega
  · rw [Nat.add_sub_cancel] at newline
    exact inline (Option.some.inj (there.symm.trans newline))

/-- A port does not start in a stretch where every colon belongs to the mark of an initial value. -/
theorem not_portStart_of_colons (here : textFrom text pos = cs ++ ';' :: after) (colons : AssignColons cs) :
    ¬PortStart text pos := by
  rintro ⟨-, -, n, listed, colon, k, blanks, c, letter, direction⟩
  have char (i : Nat) (inside : i < cs.length) : text[pos + i]? = cs[i]? := by
    rw [getElem?_of_textFrom here, getElem?_append_left inside]
  have stop : text[pos + cs.length]? = some ';' := by
    rw [getElem?_of_textFrom here]
    simp
  have inside : n < cs.length := by
    by_contra outside
    by_cases last : n = cs.length
    · rw [last, stop] at colon
      simp at colon
    · obtain ⟨d, there, kind⟩ := listed cs.length (by omega)
      obtain rfl := Option.some.inj (stop.symm.trans there)
      revert kind
      decide
  rw [char n inside] at colon
  have equals := colons n colon
  have inside' : n + 1 < cs.length := (List.getElem?_eq_some_iff.mp equals).1
  have value : text[pos + n + 1]? = some '=' := by rw [Nat.add_assoc, char (n + 1) inside', equals]
  cases k with
  | zero =>
    obtain rfl := Option.some.inj (value.symm.trans letter)
    revert direction
    decide
  | succ k =>
    obtain ⟨d, there, blank⟩ := blanks 0 (by omega)
    obtain rfl := Option.some.inj (value.symm.trans there)
    revert blank
    decide

theorem AssignColons.append_left {a b : List Char} (none : ':' ∉ a) (colons : AssignColons b) :
    AssignColons (a ++ b) := by
  intro i colon
  by_cases inside : i < a.length
  · rw [getElem?_append_left inside] at colon
    exact absurd (mem_of_getElem? colon) none
  · rw [getElem?_append_right (by omega)] at colon ⊢
    rw [show i + 1 - a.length = i - a.length + 1 by omega]
    exact colons _ colon

theorem AssignColons.append_right {a b : List Char} (colons : AssignColons a) (none : ':' ∉ b) :
    AssignColons (a ++ b) := by
  intro i colon
  by_cases inside : i < a.length
  · rw [getElem?_append_left inside] at colon
    have equals := colons i colon
    rwa [List.getElem?_append_left (List.getElem?_eq_some_iff.mp equals).1]
  · rw [getElem?_append_right (by omega)] at colon
    exact absurd (mem_of_getElem? colon) none

theorem AssignColons.drop (colons : AssignColons cs) (n : Nat) : AssignColons (cs.drop n) := by
  intro i colon
  rw [getElem?_drop] at colon ⊢
  exact colons (n + i) colon

theorem Direction.lower (d : Direction) : Lower d.word := by
  cases d <;> decide

def PortLayout.directionName (p : PortLayout) : Identifier :=
  p.written.identifier p.direction.lower (by cases p.direction <;> decide)

theorem PortLayout.afterName_colons (p : PortLayout) : AssignColons p.afterName := by
  have letters : ':' ∉ p.written.chars := p.directionName.not_mem (by decide)
  have blanks (g : Gap) : ':' ∉ g.chars := g.not_mem (by decide)
  exact .append_left (blanks _) (.append_left letters (.append_left (blanks _)
    (.append_right p.type.colons (blanks _))))

theorem not_portStart_in_gap (g : Gap)
    (here : textFrom text pos = g.chars ++ after) (i : Nat) (inside : i < g.chars.length) :
    ¬PortStart text (pos + i) := by
  have there : text[pos + i]? = some g.chars[i] := by
    rw [getElem?_of_textFrom here, getElem?_append_left inside, getElem?_eq_getElem inside]
  exact not_portStart_of_mark there (isWord_of_isBlank (g.blank _ (getElem_mem inside)))

theorem not_portStart_in_name (name : Identifier)
    (here : textFrom text pos = name.chars ++ after) (i : Nat) (inside : i < name.chars.length) :
    ¬PortStart text (pos + (i + 1)) := by
  have there : text[pos + i]? = some name.chars[i] := by
    rw [getElem?_of_textFrom here, getElem?_append_left inside, getElem?_eq_getElem inside]
  have wordy := name.wordy _ (getElem_mem inside)
  refine not_portStart_of_before there fun newline => ?_
  rw [newline] at wordy
  revert wordy
  decide

theorem not_portStart_in_colons
    (here : textFrom text pos = cs ++ ';' :: after) (colons : AssignColons cs) (i : Nat)
    (inside : i ≤ cs.length) : ¬PortStart text (pos + i) := by
  apply not_portStart_of_colons _ (colons.drop i)
  · exact after
  · rw [textFrom_add, here, drop_append_of_le_length inside]

/-- A port whose name does not begin a line has no place where the pattern of ports matches. -/
theorem not_portStart_in_declaration (p : PortLayout) (here : textFrom text pos = p.declaration ++ ';' :: after)
    (inline : ¬(pos = 0 ∨ text[pos - 1]? = some '\n')) (i : Nat) (inside : i ≤ p.declaration.length) :
    ¬PortStart text (pos + i) := by
  simp only [PortLayout.declaration, append_assoc, cons_append] at here inside
  have behindName := textFrom_append here
  have atColon := textFrom_append behindName
  have behindColon := textFrom_cons atColon
  simp only [length_append, length_cons] at inside
  by_cases start : i = 0
  · subst start
    exact fun start => inline start.line
  by_cases inName : i ≤ p.name.chars.length
  · obtain ⟨j, rfl⟩ : ∃ j, i = j + 1 := ⟨i - 1, by omega⟩
    exact not_portStart_in_name p.name here j (by omega)
  by_cases beforeColon : i < p.name.chars.length + p.beforeColon.chars.length
  · obtain ⟨j, rfl⟩ : ∃ j, i = p.name.chars.length + j := ⟨i - p.name.chars.length, by omega⟩
    rw [← Nat.add_assoc]
    exact not_portStart_in_gap p.beforeColon behindName j (by omega)
  by_cases colon : i = p.name.chars.length + p.beforeColon.chars.length
  · rw [colon, ← Nat.add_assoc]
    exact not_portStart_of_mark (head?_of_textFrom atColon) (by decide)
  · obtain ⟨j, rfl⟩ : ∃ j, i = p.name.chars.length + p.beforeColon.chars.length + 1 + j :=
      ⟨i - (p.name.chars.length + p.beforeColon.chars.length + 1), by omega⟩
    simp only [← Nat.add_assoc]
    exact not_portStart_in_colons behindColon p.afterName_colons j (by omega)

theorem exec_direction {d : Direction} (written : Keyword d.word) {rest : List Char}
    {r : Thread} {k : Continuation} (here : textFrom text t.pos = written.chars ++ rest)
    (early : d = .both → k { t with pos := t.pos + 2 } = none)
    (next : k { t with pos := t.pos + written.chars.length } = some r) :
    exec text (choice [lit "in", lit "out", lit "inout"]) lineOptions t k = some r := by
  have whole : exec text (lit d.word) lineOptions t k = some r :=
    exec_keyword written d.lower here next
  cases d with
  | input =>
    simp only [choice, exec]
    rw [show exec text (lit "in") lineOptions t k = some r from whole]
  | output =>
    simp only [choice, exec]
    rw [exec_lit_of_keyword (q := 'o') (p := 'i') written (Direction.lower .output) rfl rfl
      (by decide) (by decide) here, show exec text (lit "out") lineOptions t k = some r from whole]
  | both =>
    simp only [choice, exec]
    have short : exec text (lit "in") lineOptions t k = none := by
      rw [exec_lit]
      split
      · exact early rfl
      · rfl
    rw [short, exec_lit_of_keyword (q := 'i') (p := 'o') written (Direction.lower .both) rfl
      rfl (by decide) (by decide) here]
    exact whole

/-- What the match of a port tells about it. -/
structure PortMatch (p : PortLayout) (pos : Nat) (m : Match) : Prop where
  start : m.start = pos
  stop : m.stop = pos + p.declaration.length
  text : m.text = ofList p.declaration
  names : m.names = [("name", 1), ("port", 3), ("type", 4)]
  name : m.named? "name" = some (ofList (p.name.chars ++ p.beforeColon.chars))
  direction : m.named? "port" = some (ofList p.written.chars)
  type : m.named? "type" = some (ofList (p.type.chars ++ p.tail.chars))

theorem PortLayout.written_both (p : PortLayout) (both : p.direction = .both) :
    ∃ a b c cs, p.written.chars = a :: b :: c :: cs ∧ isBlank c = false := by
  have length : p.written.chars.length = 5 :=
    p.written.spelled.length_eq.trans (congrArg (·.word.length) both)
  match found : p.written.chars, length with
  | a :: b :: c :: cs, _ =>
    have wordy := p.directionName.wordy c (show c ∈ p.written.chars by simp [found])
    exact ⟨a, b, c, cs, rfl, isBlank_of_isWord wordy⟩

theorem exec_type (p : PortLayout) {r : Thread} {k : Continuation}
    (here : textFrom text t.pos = p.type.chars ++ (p.tail.chars ++ ';' :: after))
    (next : k { t with pos := t.pos + (p.type.chars ++ p.tail.chars).length } = some r) :
    exec text (many1 notSemicolon) lineOptions t k = some r := by
  rw [← append_assoc] at here
  refine exec_run_of_segment here ?_ ?_ ?_ next
  · intro c member
    rw [notSemicolon_accepts_iff]
    rintro rfl
    rcases mem_append.mp member with type | tail
    · exact p.type.single type
    · exact p.tail.not_mem (by decide) tail
  · intro c head
    obtain rfl : ';' = c := by simpa using head
    decide
  · have := length_pos_iff.mpr p.type.nonempty
    rw [length_append]
    omega

theorem exists_portMatch (p : PortLayout) (here : textFrom text pos = p.declaration ++ ';' :: after)
    (line : pos = 0 ∨ text[pos - 1]? = some '\n') :
    ∃ m, portRegex.matchAt text pos false = some m ∧ PortMatch p pos m := by
  have inside := lt_size_of_textFrom here (by simp)
  have whole := here
  simp only [PortLayout.declaration, PortLayout.afterName, append_assoc, cons_append] at here
  have atColon := textFrom_append (textFrom_append here)
  have behindColon := textFrom_cons atColon
  have atDirection := textFrom_append behindColon
  have behindDirection := textFrom_append atDirection
  have atType := textFrom_append behindDirection
  apply Exists.intro
  apply And.intro
  · apply Regex.matchAt_of_exec rfl (Nat.le_of_lt inside)
    simp only [portRegex_eq, portNode, exec_seq, exec_capture]
    rw [start, exec_anchor_of_holds ((lineStart_holds_iff rfl pos).mpr line)]
    apply exec_identifierList 2 p.name (fun c member => Or.inl (p.beforeColon.blank c member))
      (fun c head => isWord_of_isBlank (p.beforeColon.blank c (mem_of_head? head))) here
    apply exec_mark rfl atColon
    apply exec_gap p.afterColon behindColon (p.directionName.blankless_head _) (Nat.zero_le _)
    apply exec_direction p.written atDirection
    · -- behind the first two letters of the longest direction no blank follows
      intro both
      obtain ⟨a, b, c, cs, split, blank⟩ := p.written_both both
      rw [split] at atDirection
      have behind := textFrom_append (show _ = [a, b] ++ _ from atDirection)
      refine exec_run_of_short (show _ = [] ++ _ from behind) ?_ Nat.one_pos
      intro d head
      obtain rfl : c = d := by simpa using head
      rwa [accepts_space]
    apply exec_gap p.beforeType.toGap behindDirection ?_ (length_pos_iff.mpr p.beforeType.nonempty)
    · exact exec_type p atType rfl
    · intro c head
      rw [head?_append_of_ne_nil _ p.type.nonempty] at head
      exact p.type.opens c head
  · rw [← append_assoc] at here atType
    refine ⟨rfl, ?stop, Match.text_of_stop ?stop whole, rfl, Match.named?_of_span rfl ?_ rfl here,
      Match.named?_of_span rfl ?_ rfl atDirection, Match.named?_of_span rfl ?_ rfl atType⟩
    · simp only [PortLayout.declaration, PortLayout.afterName, length_append, length_cons]
      omega
    · simp [spansBehindName_size, Nat.add_assoc]
    · simp [spansBehindName_size]
    · simp [spansBehindName_size]

/-- What stands before the ports of a clause: nothing at its beginning, and a semicolon later. -/
def ClauseEdge (text : Array Char) (first : Bool) (pos : Nat) : Prop :=
  if first then pos = 0 else 0 < pos ∧ text[pos - 1]? = some ';'

theorem opensLine_iff (p : PortLayout) {first : Bool}
    (before : ClauseEdge text first pos) (here : textFrom text pos = p.lead.chars ++ after) : p.opensLine first = true ↔
      pos + p.lead.chars.length = 0 ∨ text[pos + p.lead.chars.length - 1]? = some '\n' := by
  unfold PortLayout.opensLine
  cases last : p.lead.chars.getLast? with
  | none =>
    rw [getLast?_eq_none_iff.mp last, length_nil, Nat.add_zero]
    cases first with
    | true =>
      obtain rfl : pos = 0 := before
      simp
    | false =>
      obtain ⟨positive, semicolon⟩ : 0 < pos ∧ text[pos - 1]? = some ';' := before
      rw [semicolon]
      simp [Nat.ne_of_gt positive]
  | some c =>
    obtain ⟨positive, there⟩ := getElem?_last_of_textFrom here last
    rw [there, Option.some.injEq]
    simp only [beq_iff_eq]
    exact ⟨Or.inr, fun line => line.resolve_left positive⟩

theorem matchesFrom_port (p : PortLayout) (first : Bool) (fuel : Nat)
    (here : textFrom text pos = p.text ++ ';' :: after) (before : ClauseEdge text first pos) :
    ∃ next, textFrom text next = after ∧ ClauseEdge text false next ∧
      if p.opensLine first then
        ∃ m place, PortMatch p place m ∧ portRegex.matchesFrom text (fuel + 1) pos false =
          m :: portRegex.matchesFrom text fuel next false
      else
        portRegex.matchesFrom text (fuel + 1) pos false =
          portRegex.matchesFrom text (fuel + 1) next false := by
  rw [PortLayout.text, append_assoc] at here
  have line := opensLine_iff p before here
  have atName := textFrom_append here
  have atSemicolon := textFrom_append atName
  have behind := textFrom_cons atSemicolon
  have skipLead : portRegex.matchesFrom text (fuel + 1) pos false =
      portRegex.matchesFrom text (fuel + 1) (pos + p.lead.chars.length) false :=
    Regex.matchesFrom_skip rfl fun i inside =>
      matchAt_eq_none (not_portStart_in_gap p.lead here i inside)
  refine ⟨_, behind, ⟨by simp, by simpa using head?_of_textFrom atSemicolon⟩, ?_⟩
  rw [skipLead]
  split
  · next opens =>
    obtain ⟨m, found, matched⟩ := exists_portMatch p atName (line.mp opens)
    refine ⟨m, _, matched, ?_⟩
    rw [Regex.matchesFrom_of_matchAt rfl found (Regex.stop_gt_of_matchAt (by decide) found), matched.stop]
    congr 1
    apply Regex.matchesFrom_skip rfl
    intro i inside
    obtain rfl : i = 0 := by simpa using inside
    exact matchAt_eq_none (not_portStart_of_mark (head?_of_textFrom atSemicolon) (by decide))
  · next inline =>
    rw [line] at inline
    rw [Nat.add_assoc (pos + p.lead.chars.length)]
    apply Regex.matchesFrom_skip rfl
    intro i inside
    exact matchAt_eq_none
      (not_portStart_in_declaration p atName inline i (Nat.lt_succ_iff.mp inside))

theorem matchesFrom_portTexts (ports : List PortLayout) (first : Bool) {fuel : Nat}
    (here : textFrom text pos = portTexts ports) (before : ClauseEdge text first pos) (enough : ports.length < fuel) :
    Forall₂ (fun p m => ∃ place, PortMatch p place m) (linePorts first ports)
      (portRegex.matchesFrom text fuel pos false) := by
  induction ports generalizing first pos fuel with
  | nil =>
    have none : portRegex.matchesFrom text fuel pos false = [] := by
      apply Regex.matchesFrom_eq_nil rfl
      intro i _
      apply matchAt_eq_none
      rintro ⟨-, ⟨c, there, -⟩, -⟩
      rw [getElem?_of_textFrom here] at there
      simp [portTexts] at there
    rw [none]
    exact .nil
  | cons p ports ih =>
    obtain ⟨fuel, rfl⟩ : ∃ f, fuel = f + 1 := ⟨fuel - 1, by omega⟩
    rw [length_cons] at enough
    obtain ⟨next, there, later, step⟩ := matchesFrom_port p first fuel here before
    unfold linePorts
    split at step
    · next opens =>
      obtain ⟨m, place, matched, more⟩ := step
      rw [if_pos opens, more]
      exact .cons ⟨place, matched⟩ (ih false there later (by omega))
    · next inline =>
      rw [if_neg inline, step]
      exact ih false there later (by omega)

end VhdlWorkbench.Design

import VhdlWorkbench.Hierarchy.Show
import VhdlWorkbench.Proofs.Tokens
import VhdlWorkbench.Proofs.TreeRows

/-!
The text of a hierarchy's lines and the open lines that are found in it.
-/

namespace VhdlWorkbench.Hierarchy

open Pattern Pattern.Node Design List String Text

variable {n : Nat} {mark : Char}

section OpenEntry

variable {text : Array Char} {indent pos : Nat}

def entryNode (indent : Nat) : Node :=
  start ++ lit (spaces indent) ++ lit "+ " ++ identifier ++ gap1 ++ lit "(" ++
    .capture 1 none identifier ++ lit ")"

theorem openEntry_numbered (indent : Nat) :
    (openEntry indent).node = entryNode indent ∧ (openEntry indent).slots = 2 := by
  have append (a b : Node) : a ++ b = .seq a b := rfl
  have spaces := number_of_captureless (captures_lit (spaces indent)) 1
  simp only [openEntry, entryNode, Regex.ofNode, captured, append, start, number, spaces]
  exact ⟨rfl, rfl⟩

theorem start_of_matchAt {nonempty : Bool} {m : Match}
    (found : (openEntry indent).matchAt text pos nonempty = some m) : (pos = 0 ∨ text[pos - 1]? = some '\n') ∧
      ∃ tail, textFrom text pos = List.replicate indent ' ' ++ '+' :: ' ' :: tail := by
  obtain ⟨_, opens⟩ := Regex.matchAt_front 5 found
  rw [(openEntry_numbered indent).1] at opens
  obtain ⟨_, ⟨_, ⟨line, rfl⟩, blanks⟩, mark⟩ := opens
  obtain ⟨standing, rfl⟩ := reaches_lit blanks
  have cased : (openEntry indent).options.ignoreCase = false := rfl
  obtain ⟨tail, here⟩ := (wordStandsAt_cased_iff cased).mp standing
  obtain ⟨tail', there⟩ := (wordStandsAt_cased_iff cased).mp (reaches_lit mark).1
  have spaces : (spaces indent).toList = List.replicate indent ' ' := toList_ofList
  refine ⟨(lineStart_holds_iff rfl pos).mp line, tail', ?_⟩
  rw [← length_toList, textFrom_append here] at there
  rw [here, there, spaces]
  rfl

def entryGap : Gap where
  chars := [' ', ' ', ' ', ' ']
  blank := by decide

instance : Full (openEntry indent).options :=
  ⟨rfl⟩

section

variable {rest : List Char} (label unit : Identifier) (line : pos = 0 ∨ text[pos - 1]? = some '\n')
  (here : textFrom text pos = List.replicate indent ' ' ++ '+' :: ' ' :: (label.chars ++ (entryGap.chars ++ '(' :: (unit.chars ++ ')' :: rest))))
include label unit line here

theorem exec_openEntry : let place := pos + indent + 2 + label.chars.length + 4 + 1
    exec text (entryNode indent) (openEntry indent).options ⟨pos, Array.replicate 2 none⟩ some =
      some ⟨place + unit.chars.length + 1, (Array.replicate 2 none).setIfInBounds 1
        (some (place, place + unit.chars.length))⟩ := by
  have width : (spaces indent).length = indent := by simp [spaces]
  have spaces : (spaces indent).toList = List.replicate indent ' ' := toList_ofList
  rw [← spaces] at here
  have atMark := textFrom_append here
  rw [length_toList, width] at atMark
  have atLabel := textFrom_cons (textFrom_cons atMark)
  have atGap := textFrom_append atLabel
  have atBracket := textFrom_append atGap
  have atUnit := textFrom_cons atBracket
  have atClose := textFrom_append atUnit
  simp only [entryNode, exec_seq, exec_capture]
  rw [start, exec_anchor_of_holds ((lineStart_holds_iff rfl pos).mpr line)]
  apply exec_lit_of_cased rfl here
  rw [width]
  apply exec_lit_of_cased rfl (show _ = "+ ".toList ++ _ from atMark)
  apply exec_identifier label atLabel
  · exact Space.wordless_head ⟨entryGap, cons_ne_nil _ _⟩ _
  apply exec_gap entryGap atGap
  · rintro c ⟨⟩
    decide
  · decide
  apply exec_lit_of_cased rfl (show _ = "(".toList ++ _ from atBracket)
  apply exec_identifier unit atUnit
  · rintro c ⟨⟩
    decide
  exact exec_lit_of_cased rfl (show _ = ")".toList ++ _ from atClose) rfl

/-- An open line at the indentation is matched up to its end, with its type as the group. -/
theorem matchAt_of_open :
    ∃ m, (openEntry indent).matchAt text pos false = some m ∧ m.start = pos ∧
      m.stop = pos + (indent + label.chars.length + unit.chars.length + 8) ∧
      m.group 1 = ofList unit.chars := by
  have run := exec_openEntry label unit line here
  have inside : ¬text.size < pos := by
    have := textFrom_length text pos
    rw [here] at this
    simp only [List.length_append, List.length_cons] at this
    omega
  obtain ⟨numbered, slots⟩ := openEntry_numbered indent
  have least : (openEntry indent).least = 0 := rfl
  have atMark := textFrom_append here
  rw [List.length_replicate] at atMark
  have atLabel : textFrom text (pos + indent + 2) = _ := textFrom_cons (textFrom_cons atMark)
  have atGap := textFrom_append atLabel
  have atUnit : textFrom text (pos + indent + 2 + label.chars.length + 4 + 1) = _ :=
    textFrom_cons (textFrom_append atGap)
  have found : (openEntry indent).matchAt text pos false = some
      { source := text, start := pos
        stop := pos + indent + 2 + label.chars.length + 4 + 1 + unit.chars.length + 1
        spans := (Array.replicate 2 none).setIfInBounds 1 (some
          (pos + indent + 2 + label.chars.length + 4 + 1,
            pos + indent + 2 + label.chars.length + 4 + 1 + unit.chars.length))
        names := (openEntry indent).names } := by
    simp [Regex.matchAt, least, inside, numbered, slots, run]
  refine ⟨_, found, rfl, ?_, ?_⟩
  · simp only
    omega
  · simp [Match.group, Match.group?, Match.span?, segment_of_textFrom atUnit]

end

end OpenEntry

section Lines

variable {e : Explored} {row : Row} {text : Array Char} {indent pos : Nat} {rest : List Char}

/-- The names in a line are words. -/
def Row.Named (row : Row) : Prop :=
  isName row.entry.label = true ∧ isName row.entry.unit = true

theorem toList_times (n : Nat) : (times n "  ").toList = List.replicate (2 * n) ' ' := by
  rw [times, toList_join]
  induction n with
  | zero => rfl
  | succ n ih =>
    rw [replicate_succ, flatMap_cons, ih, Nat.mul_succ, Nat.add_comm, replicate_add]
    rfl

def Row.chars (e : Explored) (row : Row) : List Char :=
  List.replicate (2 * row.level) ' ' ++ (row.body e).toList

theorem toList_text (e : Explored) (row : Row) : (row.text e).toList = row.chars e ++ ['\n'] := by
  rw [Row.text, toList_append, toList_append, toList_times]
  rfl

theorem toList_body (e : Explored) (row : Row) :
    (row.body e).toList = (if row.isOpen e then '+' else '-') :: ' ' :: (row.entry.label.toList ++
      (entryGap.chars ++ '(' :: (row.entry.unit.toList ++ ')' ::
        (if row.isOpen e then [] else (e.remark row.entry.unit).toList)))) := by
  unfold Row.body entryText
  split
  · simp [entryGap]
  · simp [entryGap]

theorem newline_not_mem_name {s : String} (named : isName s = true) : '\n' ∉ s.toList := by
  obtain ⟨name, rfl⟩ := exists_identifier named
  rw [toList_ofList]
  exact name.not_mem (by decide)

theorem newline_not_mem_body (named : row.Named) : '\n' ∉ (row.body e).toList := by
  have label := newline_not_mem_name named.1
  have unit := newline_not_mem_name named.2
  have remark : '\n' ∉ (e.remark row.entry.unit).toList := by
    unfold Explored.remark
    split
    · decide
    · split <;> decide
  rw [toList_body]
  split <;> simp [entryGap, label, unit, remark]

theorem newline_not_mem_chars (named : row.Named) : '\n' ∉ row.chars e := by
  rw [Row.chars, mem_append, mem_replicate]
  rintro (⟨-, blank⟩ | inside)
  · exact absurd blank (by decide)
  · exact newline_not_mem_body named inside

/-- Two texts that are indented agree in how far they are indented and in what comes first. -/
theorem indent_unique {m : Nat} {c d : Char} {cs ds : List Char} (left : c ≠ ' ') (right : d ≠ ' ')
    (same : List.replicate n ' ' ++ c :: cs = List.replicate m ' ' ++ d :: ds) : n = m ∧ c = d := by
  have run {k : Nat} {x : Char} {xs : List Char} (other : x ≠ ' ') :
      (List.replicate k ' ' ++ x :: xs).takeWhile (· == ' ') = List.replicate k ' ' := by
    apply takeWhile_append_of_stop
    · simp
    · simpa using other
  have length : n = m := by
    have blanks := congrArg (takeWhile (· == ' ')) same
    rw [run left, run right] at blanks
    simpa using congrArg List.length blanks
  subst length
  exact ⟨rfl, (cons.inj (append_cancel_left same)).1⟩

theorem matchAt_inside (indent : Nat) {cs : List Char} (here : textFrom text pos = cs ++ rest)
    (single : '\n' ∉ cs) {i : Nat} (behind : 0 < i) (inside : i ≤ cs.length) :
    (openEntry indent).matchAt text (pos + i) false = none := by
  cases found : (openEntry indent).matchAt text (pos + i) false with
  | none => rfl
  | some m =>
    rcases (start_of_matchAt found).1 with first | line
    · omega
    · rw [show pos + i - 1 = pos + (i - 1) by omega, getElem?_of_textFrom here,
        getElem?_append_left (by omega)] at line
      exact absurd (mem_of_getElem? line) single

theorem matchAt_other (here : textFrom text pos = List.replicate n ' ' ++ mark :: rest) (solid : mark ≠ ' ')
    (other : indent = n → mark ≠ '+') : (openEntry indent).matchAt text pos false = none := by
  cases found : (openEntry indent).matchAt text pos false with
  | none => rfl
  | some m =>
    obtain ⟨-, tail, there⟩ := start_of_matchAt found
    obtain ⟨same, plus⟩ := indent_unique (by decide) solid (there.symm.trans here)
    exact absurd plus.symm (other same)

def Row.isAt (e : Explored) (indent : Nat) (row : Row) : Bool :=
  row.isOpen e && 2 * row.level == indent

-- The search goes on behind the line's break, where nothing begins.
theorem matchesFrom_open (named : row.Named) (opens : row.isOpen e = true) (fuel : Nat)
    (line : pos = 0 ∨ text[pos - 1]? = some '\n') (here : textFrom text pos = row.chars e ++ '\n' :: rest) :
    ∃ m, m.group 1 = row.entry.unit ∧
      (openEntry (2 * row.level)).matchesFrom text (fuel + 1) pos false =
        m :: (openEntry (2 * row.level)).matchesFrom text fuel (pos + (row.chars e).length + 1) false := by
  have single := newline_not_mem_chars (e := e) named
  obtain ⟨label, labelled⟩ := exists_identifier named.1
  obtain ⟨unit, typed⟩ := exists_identifier named.2
  have chars : row.chars e = List.replicate (2 * row.level) ' ' ++ '+' :: ' ' :: (label.chars ++
      (entryGap.chars ++ '(' :: (unit.chars ++ [')']))) := by
    simp [Row.chars, toList_body, opens, labelled, typed]
  have length : (row.chars e).length = 2 * row.level + label.chars.length + unit.chars.length + 8 := by
    simp [chars, entryGap]
    omega
  have there := here
  rw [chars] at there
  simp only [List.append_assoc, List.cons_append, List.nil_append] at there
  obtain ⟨m, found, start, stop, group⟩ := matchAt_of_open label unit line there
  refine ⟨m, by rw [group, typed], ?_⟩
  rw [Regex.matchesFrom_of_matchAt rfl found (by omega), stop, ← length]
  congr 1
  apply Regex.matchesFrom_skip rfl
  intro i first
  obtain rfl : i = 0 := by omega
  exact matchAt_inside _ here single (by omega) (Nat.le_refl _)

theorem matchesFrom_other (named : row.Named) (other : row.isAt e indent = false) (fuel : Nat)
    (here : textFrom text pos = row.chars e ++ '\n' :: rest) : (openEntry indent).matchesFrom text fuel pos false =
      (openEntry indent).matchesFrom text fuel (pos + (row.chars e).length + 1) false := by
  rw [Nat.add_assoc]
  apply Regex.matchesFrom_skip rfl
  intro i bound
  by_cases first : i = 0
  · subst first
    rw [Row.chars, toList_body, List.append_assoc, List.cons_append] at here
    apply matchAt_other here
    · split <;> decide
    · rintro rfl
      have closed : row.isOpen e = false := by simpa [Row.isAt] using other
      simp [closed]
  · exact matchAt_inside indent here (newline_not_mem_chars named) (by omega) (by omega)

/-- The matches in a run of lines are the open ones at the indentation, with their types. -/
theorem matchesFrom_rows {rows : List Row} (named : ∀ row ∈ rows, row.Named) {fuel : Nat}
    (enough : rows.length < fuel) (line : pos = 0 ∨ text[pos - 1]? = some '\n')
    (here : textFrom text pos = rows.flatMap (fun row => (row.text e).toList) ++ rest)
    (silent : ∀ place fuel, textFrom text place = rest →
      (openEntry indent).matchesFrom text fuel place false = []) :
    ((openEntry indent).matchesFrom text fuel pos false).map (·.group 1) =
      (rows.filter (Row.isAt e indent)).map (·.entry.unit) := by
  induction rows generalizing pos fuel with
  | nil => rw [silent pos fuel here, filter_nil, map_nil, map_nil]
  | cons row rows ih =>
    obtain ⟨fuel, rfl⟩ : ∃ less, fuel = less + 1 := ⟨fuel - 1, by omega⟩
    rw [length_cons] at enough
    rw [List.flatMap_cons, toList_text, List.append_assoc, List.append_assoc, List.singleton_append] at here
    have own := named row mem_cons_self
    have others : ∀ row ∈ rows, row.Named := fun row member => named row (mem_cons_of_mem _ member)
    have atFeed := textFrom_append here
    have atNext := textFrom_cons atFeed
    have next : pos + (row.chars e).length + 1 = 0 ∨
        text[pos + (row.chars e).length + 1 - 1]? = some '\n' := Or.inr (head?_of_textFrom atFeed)
    cases isAt : row.isAt e indent with
    | true =>
      obtain ⟨opens, level⟩ := Bool.and_eq_true_iff.mp isAt
      obtain rfl := beq_iff_eq.mp level
      obtain ⟨m, group, matched⟩ := matchesFrom_open own opens fuel line here
      rw [matched, filter_cons_of_pos isAt, map_cons, map_cons, group,
        ih others (by omega) next atNext]
    | false =>
      rw [matchesFrom_other own isAt _ here, filter_cons_of_neg (by simp [isAt]),
        ih others (by omega) next atNext]

theorem length_le_rows (e : Explored) (rows : List Row) :
    rows.length ≤ (rows.flatMap fun row => (row.text e).toList).length := by
  induction rows with
  | nil => exact Nat.le_refl 0
  | cons row rows ih =>
    rw [List.flatMap_cons, List.length_append, List.length_cons, toList_text]
    simp only [List.length_append, List.length_singleton]
    omega

theorem matchesFrom_begun {fuel : Nat} (solid : mark ≠ ' ') (feed : mark ≠ '\n')
    (deeper : indent < n) (here : textFrom text pos = List.replicate n ' ' ++ [mark, ' ']) :
    (openEntry indent).matchesFrom text fuel pos false = [] := by
  have single : '\n' ∉ List.replicate n ' ' ++ [mark, ' '] := by
    simp [feed.symm]
  have size := textFrom_length text pos
  rw [here] at size
  apply Regex.matchesFrom_eq_nil rfl
  intro i bound
  by_cases first : i = 0
  · subst first
    apply matchAt_other here solid
    omega
  · rw [← append_nil (List.replicate n ' ' ++ [mark, ' '])] at here
    exact matchAt_inside indent here single (by omega) (by omega)

/-- The type that is read from the text before an instance is that of the last open line at the
indentation. -/
theorem parentType?_eq {root : String} {rows : List Row}
    (rootNamed : isName root = true) (named : ∀ row ∈ rows, row.Named) (solid : mark ≠ ' ')
    (feed : mark ≠ '\n') (indented : 0 < indent) (deeper : indent < n) :
    parentType? indent (ofList (root.toList ++ '\n' :: (rows.flatMap (fun row => (row.text e).toList) ++
        (List.replicate n ' ' ++ [mark, ' '])))) =
      (rows.filter (Row.isAt e indent)).getLast?.map (·.entry.unit) := by
  obtain ⟨name, rfl⟩ := exists_identifier rootNamed
  rw [parentType?, ← getLast?_map, ← getLast?_map, Regex.matches_, toList_ofList,
    toList_ofList]
  congr 1
  have whole := textFrom_zero (name.chars ++ '\n' :: (rows.flatMap (fun row => (row.text e).toList) ++
    (List.replicate n ' ' ++ [mark, ' '])))
  have enough : rows.length < 2 * (name.chars ++ '\n' :: (rows.flatMap (fun row => (row.text e).toList) ++
      (List.replicate n ' ' ++ [mark, ' ']))).toArray.size + 2 := by
    have := length_le_rows e rows
    simp only [List.size_toArray, List.length_append, List.length_cons]
    omega
  generalize (name.chars ++ '\n' :: (rows.flatMap (fun row => (row.text e).toList) ++
    (List.replicate n ' ' ++ [mark, ' ']))).toArray = text at whole enough ⊢
  have atFeed := textFrom_append whole
  have atRows := textFrom_cons atFeed
  have skip : (openEntry indent).matchesFrom text (2 * text.size + 2) 0 false =
      (openEntry indent).matchesFrom text (2 * text.size + 2) (0 + (name.chars.length + 1)) false := by
    apply Regex.matchesFrom_skip rfl
    intro i bound
    by_cases first : i = 0
    · subst first
      obtain ⟨c, cs, split⟩ := exists_cons_of_ne_nil name.nonempty
      have letter : c ≠ ' ' := by
        rintro rfl
        exact name.not_mem (by decide) (split ▸ mem_cons_self)
      rw [split] at whole
      apply matchAt_other (n := 0) whole letter
      omega
    · exact matchAt_inside indent whole (name.not_mem (by decide)) (by omega) (by omega)
  rw [skip]
  apply matchesFrom_rows named enough (Or.inr (head?_of_textFrom atFeed)) atRows
  intro place fuel there
  exact matchesFrom_begun solid feed deeper there

end Lines

/-- The text before the instance of a line, in a hierarchy with the given lines before it. -/
def charsBefore (e : Explored) (root : String) (before : List Row) (row : Row) : List Char :=
  root.toList ++ '\n' :: (before.flatMap (fun row => (row.text e).toList) ++
    (List.replicate (2 * row.level) ' ' ++ [if row.isOpen e then '+' else '-', ' ']))

/-- The type that is read for a line which is not at the first level is the one that it is listed under. -/
theorem parentType?_of_split {e : Explored} {root : String} {left : Nat} {before after : List Row}
    {row : Row} (rootNamed : isName root = true) (named : ∀ row ∈ before, row.Named)
    (split : rowsBelow e left 1 root = before ++ row :: after) (deep : 1 < row.level) :
    parentType? (2 * row.level - 2) (ofList (charsBefore e root before row)) = some row.parent := by
  rcases parent_of_split split with ⟨high, -⟩ | ⟨earlier, opener, between, rfl, height, opens, unit, lower⟩
  · omega
  · have none : between.filter (Row.isAt e (2 * row.level - 2)) = [] := by
      rw [filter_eq_nil_iff]
      intro other member isAt
      have := lower other member
      simp only [Row.isAt, Bool.and_eq_true, beq_iff_eq] at isAt
      omega
    have last : opener.isAt e (2 * row.level - 2) = true := by
      simp only [Row.isAt, opens, Bool.true_and, beq_iff_eq]
      omega
    rw [charsBefore, parentType?_eq rootNamed named (by split <;> decide) (by split <;> decide) (by omega)
      (by omega), filter_append, filter_cons_of_pos last, none, List.getLast?_append]
    simp [unit]

end VhdlWorkbench.Hierarchy

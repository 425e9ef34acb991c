import VhdlWorkbench.Proofs.Clauses
import VhdlWorkbench.Proofs.RecordRows

/-!
Comment lines in the clauses of an entity: where they stand in the result.
-/

namespace VhdlWorkbench.Text

open List

variable {row body rest : List Char}

theorem linesFrom_append_feed (line cs rest : List Char) :
    linesFrom line (cs ++ '\n' :: rest) = linesFrom line (cs ++ ['\n']) ++ linesFrom [] rest := by
  fun_induction linesFrom line cs with
  | case1 line _ => rw [nil_append, nil_append, linesFrom_feed, linesFrom_feed]; rfl
  | case2 line _ => rw [nil_append, nil_append, linesFrom_feed, linesFrom_feed]; rfl
  | case3 line cs ih =>
    simp only [cons_append]
    rw [linesFrom, ih, linesFrom, cons_append]
  | case4 line c cs unpaired ends ih =>
    by_cases last : c = '\r' ∧ cs = []
    · obtain ⟨rfl, rfl⟩ := last
      rfl
    · have single (after : List Char) : c = '\r' → (cs ++ '\n' :: after).head? ≠ some '\n' := by
        rintro rfl head
        cases cs with
        | nil => exact last ⟨rfl, rfl⟩
        | cons d cs => exact unpaired cs rfl (congrArg (· :: cs) (Option.some.inj head))
      rw [cons_append, cons_append, linesFrom_cons line (single rest), linesFrom_cons line (single []), if_pos ends,
        if_pos ends, ih, cons_append]
  | case5 line c cs unpaired goes ih =>
    have single (after : List Char) : c = '\r' → (cs ++ '\n' :: after).head? ≠ some '\n' := by
      rintro rfl
      exact absurd (by decide) goes
    rw [cons_append, cons_append, linesFrom_cons line (single rest), linesFrom_cons line (single []), if_neg goes,
      if_neg goes, ih]

theorem exists_linesFrom_row (single : ∀ c ∈ row, isLineEnd c = false) (nonempty : row ≠ [])
    (ends : ∀ c, rest.head? = some c → isLineEnd c = true) : ∃ below, linesFrom [] (row ++ rest) = row :: below := by
  rw [linesFrom_inline single, append_nil]
  cases rest with
  | nil => exact ⟨[], by simp [linesFrom, nonempty]⟩
  | cons c rest =>
    by_cases pair : c = '\r' ∧ ∃ more, rest = '\n' :: more
    · obtain ⟨rfl, more, rfl⟩ := pair
      exact ⟨linesFrom [] more, by rw [linesFrom, reverse_reverse]⟩
    · refine ⟨linesFrom [] rest, ?_⟩
      rw [linesFrom_cons, if_pos (ends c rfl), reverse_reverse]
      rintro rfl head
      cases rest with
      | nil => exact absurd head (by simp)
      | cons d rest => exact pair ⟨rfl, rest, congrArg (· :: rest) (Option.some.inj head)⟩

/-- A line of a text behind its first solid character stays a line when the text is trimmed; it may lose blanks at its
end. -/
theorem exists_line_of_trimmed {before lead after : List Char} {c : Char} (later : ∃ d ∈ before, isBlank d = false)
    (solid : isBlank c = false) (single : ∀ d ∈ lead ++ c :: body, isLineEnd d = false)
    (ends : ∀ d, after.head? = some d → isLineEnd d = true) :
    ∃ body' below, linesFrom [] (trimmed (before ++ '\n' :: (lead ++ c :: (body ++ after)))) =
        linesFrom [] (dropBlanks before ++ ['\n']) ++ (lead ++ c :: body') :: below ∧
      dropBlanksRight body' = dropBlanksRight body ∧ ∀ d ∈ body', isLineEnd d = false := by
  obtain ⟨d, member, visible⟩ := later
  have text : trimmed (before ++ '\n' :: (lead ++ c :: (body ++ after))) =
      dropBlanks before ++ '\n' :: (lead ++ c :: dropBlanksRight (body ++ after)) := by
    have closes : ∀ d, (dropBlanks before ++ '\n' :: lead ++ [c]).getLast? = some d → isBlank d = false := by
      rw [getLast?_concat]
      rintro d ⟨⟩
      exact solid
    have right := dropBlanksRight_append_left closes (body ++ after)
    rw [trimmed, dropBlanks_append_of_mem member visible]
    simpa using right
  obtain ⟨body', after', split, same, inside, ends'⟩ : ∃ body' after', dropBlanksRight (body ++ after) = body' ++ after' ∧
      dropBlanksRight body' = dropBlanksRight body ∧ (∀ d ∈ body', d ∈ body) ∧
        ∀ d, after'.head? = some d → isLineEnd d = true := by
    by_cases blank : ∀ d ∈ after, isBlank d = true
    · obtain ⟨trail, whole, -⟩ := exists_dropBlanksRight body
      refine ⟨dropBlanksRight body, [], by rw [dropBlanksRight_append blank, append_nil],
        dropBlanksRight_of_solid fun _ => solid_last_dropBlanksRight, fun d member => ?_, by simp⟩
      rw [whole]
      exact mem_append_left _ member
    · simp only [not_forall, Bool.not_eq_true] at blank
      obtain ⟨d, member, visible⟩ := blank
      refine ⟨body, dropBlanksRight after, dropBlanksRight_append_of_mem member visible body, rfl, fun _ => id, fun e head => ?_⟩
      obtain ⟨trail, whole, -⟩ := exists_dropBlanksRight after
      exact ends e (by rw [whole, head?_append, head, Option.some_or])
  have line : ∀ d ∈ lead ++ c :: body', isLineEnd d = false := by
    simp only [forall_mem_append, forall_mem_cons] at single ⊢
    exact ⟨single.1, single.2.1, fun d member => single.2.2 d (inside d member)⟩
  obtain ⟨below, cut⟩ := exists_linesFrom_row line (by simp) ends'
  refine ⟨body', below, ?_, same, fun d member => line d (by simp [member])⟩
  rw [text, linesFrom_append_feed, split]
  have whole : lead ++ c :: (body' ++ after') = (lead ++ c :: body') ++ after' := by simp
  rw [whole, cut]

end VhdlWorkbench.Text

namespace VhdlWorkbench.Layout

open Pattern Pattern.Node Text List

section CommentLine

variable {indent : Indentation}

/-- The level of an indentation by tabs. The last tab is not counted, since the text of the indentation has no line feed
at which it could be cut. -/
theorem Indentation.level_tabs (tabbed : indent.useSpaces = false) (wide : 0 < indent.tabSize) (k : Nat) :
    indent.level (String.ofList (replicate k '\t')) = .ok ((k - 1 : Nat) : Int) := by
  have endless (n : Nat) : findFrom ['\n'] n (replicate k '\t') = none := by
    induction k generalizing n with
    | zero => rfl
    | succ k ih => simp [replicate_succ, findFrom, ih]
  have first : firstLine (String.ofList (replicate k '\t')) = String.ofList (replicate (k - 1) '\t') := by
    have none : find? (String.ofList (replicate k '\t')) "\n" = none := by
      simpa [Text.find?] using endless 0
    simp [firstLine, none, slice]
  have kept (n j : Nat) :
      replaceFrom (' ' :: replicate n ' ') ['\t'] 0 (replicate j '\t') = replicate j '\t' := by
    induction j with
    | zero => rfl
    | succ j ih => simp [replicate_succ, replaceFrom, ih]
  obtain ⟨n, size⟩ : ∃ n, indent.tabSize.toNat = n + 1 := ⟨indent.tabSize.toNat - 1, by omega⟩
  have same : replaceAll (String.ofList (replicate (k - 1) '\t')) (spaces indent.tabSize.toNat) "\t" =
      String.ofList (replicate (k - 1) '\t') := by
    simp [replaceAll, spaces, size, replicate_succ, kept]
  have blank : dropBlanks (replicate (k - 1) '\t') = [] := by
    rw [dropBlanks, dropWhile_eq_nil_iff]
    intro c member
    rw [eq_of_mem_replicate member]
    decide
  simp [Indentation.level, tabbed, first, same, leadingBlanks, trimLeft, blank]

theorem commentLine_eq : commentLine =
    { node := start ++ .capture 1 (some "space") spacing ++ lit "--" ++ spacing ++ .capture 2 (some "comment") (few .any) ++
        .capture 3 none (choice [lit "\n", stop]),
      options := {}, slots := 4, names := [("space", 1), ("comment", 2)] } :=
  rfl

theorem exists_commentLine (k : Nat) {body : List Char} (single : '\n' ∉ body) :
    ∃ m, commentLine.matchStart? (String.ofList (replicate k '\t' ++ '-' :: '-' :: body)) = some m ∧
      m.named "space" = String.ofList (replicate k '\t') := by
  obtain ⟨text, chars⟩ : ∃ text : Array Char, text = (replicate k '\t' ++ '-' :: '-' :: body).toArray := ⟨_, rfl⟩
  have here : textFrom text 0 = replicate k '\t' ++ '-' :: '-' :: body := by rw [chars, textFrom_zero]
  have dashes : textFrom text (0 + (replicate k '\t').length) = "--".toList ++ body := textFrom_append here
  have behind : textFrom text (0 + (replicate k '\t').length + "--".length) = body := textFrom_append dashes
  let spans : Array (Option (Nat × Nat)) :=
    (Array.replicate 4 none).setIfInBounds 1 (some (0, 0 + (replicate k '\t').length))
  let t : Thread := ⟨0 + (replicate k '\t').length + "--".length, spans⟩
  have rest : (exec text (spacing ++ .capture 2 (some "comment") (few .any) ++
      .capture 3 none (choice [lit "\n", stop])) {} t some).isSome = true := by
    have visible : ∀ i < body.length, ∃ c, text[t.pos + 0 + i]? = some c ∧ Single.any.accepts {} c = true := by
      intro i inside
      rw [Nat.add_zero, getElem?_of_textFrom behind, getElem?_eq_getElem inside]
      refine ⟨_, rfl, ?_⟩
      have other : body[i] ≠ '\n' := fun feed => single (feed ▸ getElem_mem inside)
      simpa [Single.accepts] using other
    have ends : Anchor.holds text {} .lineEnd (t.pos + 0 + body.length) = true := by
      have size : text.size = t.pos + 0 + body.length := by
        simp only [chars, t, size_toArray, length_append, length_cons, length_replicate]
        rw [show "--".length = 2 from rfl]
        omega
      simp [Anchor.holds, size]
    refine exec_of_reaches _ _ _ _ _ rfl ⟨_, ⟨_, ⟨0, Nat.le_refl 0, by simp, by simp, rfl⟩, _, ⟨body.length, Nat.zero_le _, by simp,
      visible, rfl⟩, rfl⟩, _, Or.inr ⟨ends, rfl⟩, rfl⟩ rfl
  obtain ⟨r, runs⟩ := Option.isSome_iff_exists.mp rest
  have whole : exec text commentLine.node {} ⟨0, Array.replicate 4 none⟩ some = some r := by
    rw [commentLine_eq]
    simp only [exec_seq, exec_capture]
    rw [start, exec_anchor_of_holds rfl]
    refine exec_run_of_segment here ?_ ?_ (Nat.zero_le _) ?_
    · intro c member
      rw [eq_of_mem_replicate member]
      rfl
    · rintro c ⟨⟩
      rfl
    · exact exec_lit_of_cased rfl dashes runs
  have found := Regex.matchAt_of_exec (r := commentLine) rfl (Nat.zero_le _) whole
  refine ⟨_, by rw [Regex.matchStart?, String.toList_ofList, ← chars]; exact found, ?_⟩
  obtain ⟨u, reached, same⟩ := exec_reaches _ _ _ _ _ runs
  obtain rfl := Option.some.inj same
  have span : u.spans[1]? = some (some (0, 0 + (replicate k '\t').length)) :=
    (reached.span_eq (by decide)).trans (by simp [t, spans])
  exact named_of_span 0 rfl span rfl here

theorem Clause.row_of_comment (clause : Clause) (k : Nat) (body : List Char) :
    (Regex.ofNode oneRow clause.row).matchStart? (String.ofList (replicate k '\t' ++ '-' :: body)) = none := by
  rw [Regex.matchStart?, String.toList_ofList, Option.eq_none_iff_forall_ne_some]
  intro m found
  obtain ⟨before, c, rest, here, blank, wordy⟩ := clause.word_of_row found
  rw [textFrom_zero] at here
  have tabs : ∀ c ∈ replicate k '\t', isSpace c = true := by
    intro c member
    rw [eq_of_mem_replicate member]
    rfl
  have stops : Stops isSpace (c :: rest) := by
    rintro d ⟨⟩
    rw [Bool.eq_false_iff]
    intro space
    exact absurd (isWord_of_isBlank (isBlank_of_isSpace space)) (by simp [wordy])
  have dash : Stops isSpace ('-' :: body) := by
    rintro d ⟨⟩
    rfl
  obtain ⟨-, same⟩ := cut_unique here tabs dash blank stops
  obtain rfl : '-' = c := (cons.inj same).1
  exact absurd wordy (by decide)

def Clause.commentPlace (w : ClauseColumns) : Clause → Nat
  | .generic => w.name + 1 + w.type + w.range + w.initial
  | .port => w.name + w.type + w.range + w.initial + w.direction + 6

def Clause.commentLead (level k column : Nat) : Clause → String
  | .generic => tabs column
  | .port => tabs (level + 2) ++ spaces (if level + 2 < k - 1 then column else 0)

variable (tabbed : indent.useSpaces = false) (wide : 0 < indent.tabSize)

include tabbed wide

theorem Clause.renderLine_of_comment (clause : Clause) (level : Nat) (w : ClauseColumns) (k : Nat) {body : List Char}
    (single : '\n' ∉ body) :
    clause.renderLine indent level w (String.ofList (replicate k '\t' ++ '-' :: '-' :: body)) =
      .ok (clause.commentLead level k (clause.commentPlace w) ++ trim (String.ofList ('-' :: '-' :: body))) := by
  obtain ⟨m, found, space⟩ := exists_commentLine k single
  have visible : '\n' ∉ replicate k '\t' ++ '-' :: '-' :: body := by
    simpa [mem_replicate] using single
  have text := text_commentLine visible found
  have trimmed : trim m.text = trim (String.ofList ('-' :: '-' :: body)) := by
    have blank : ∀ c ∈ replicate k '\t', isBlank c = true := by
      intro c member
      rw [eq_of_mem_replicate member]
      rfl
    rw [text, trim_eq, trim_eq, String.toList_ofList, String.toList_ofList, trimmed_append_left blank]
  have depth := Indentation.level_tabs tabbed wide k
  simp only [renderLine, clause.row_of_comment k ('-' :: body), found]
  cases clause with
  | generic =>
    simp only [renderComment, renderGenericComment, space, depth, trimmed]
    rfl
  | port =>
    have deeper : (level : Int) + 2 < ((k - 1 : Nat) : Int) ↔ level + 2 < k - 1 := by omega
    simp only [renderComment, renderPortComment, space, depth, trimmed, bind, Except.bind, deeper]
    rfl

end CommentLine

/-- What the rule for comments sets before one that stood behind `k` tabs: the indentation of the rows, and the spaces up
to the comment column if the comment was indented deeper than the rows. -/
def ruleLead (level k column : Nat) : String :=
  tabs (level + 2) ++ spaces (if k ≤ level + 2 then 0 else column)

/-- The comment is set where the rule says. -/
def Clause.FollowsRule (level k column : Nat) : Clause → Prop
  | .generic => k ≤ level + 2 ∧ column = level + 2
  | .port => k ≠ level + 3

theorem length_spaces (n : Nat) : (spaces n).length = n := by
  simp [spaces]

theorem length_tabs (n : Nat) : (tabs n).length = n := by
  rw [← String.length_toList, toList_tabs]
  simp

theorem Clause.commentLead_eq_ruleLead_iff (clause : Clause) (level k : Nat) (w : ClauseColumns) :
    clause.commentLead level k (clause.commentPlace w) = ruleLead level k (clause.commentPlace w) ↔
      clause.FollowsRule level k (clause.commentPlace w) := by
  obtain ⟨column, place⟩ : ∃ column, column = clause.commentPlace w := ⟨_, rfl⟩
  have positive : 0 < column := by
    cases clause <;> simp only [place, commentPlace] <;> omega
  rw [← place]
  have rows : ((level : Int) + 2) = ((level + 2 : Nat) : Int) := by omega
  cases clause with
  | generic =>
    constructor
    · intro same
      have length := congrArg String.length same
      simp only [commentLead, ruleLead, rows, String.length_append, length_tabs, length_spaces] at length
      by_cases deep : k ≤ level + 2
      · rw [if_pos deep] at length
        exact ⟨deep, by omega⟩
      · rw [if_neg deep] at length
        omega
    · rintro ⟨flat, rfl⟩
      simp [commentLead, ruleLead, flat, spaces]
  | port =>
    constructor
    · intro same deep
      have length := congrArg String.length same
      simp only [commentLead, ruleLead, String.length_append, length_spaces] at length
      rw [if_neg (by omega), if_neg (by omega)] at length
      omega
    · intro other
      have deeper : (if level + 2 < k - 1 then column else 0) = if k ≤ level + 2 then 0 else column := by
        simp only [FollowsRule] at other
        split <;> split <;> omega
      simp only [commentLead, ruleLead, deeper]

/-- A comment line behind tabs in a clause of an entity has a lead of its own in the result. This is the lead of the rule
exactly if the line is in the port clause and not one tab deeper than the rows, or it is in the generic clause, not deeper
than the rows, and the comment column happens to be the number of tabs before the rows. -/
theorem comment_line_follows_rule_iff (clause : Clause) (indent : Indentation) (level k : Nat) (text : String) (m : Match)
    (before body after : List Char) (tabbed : indent.useSpaces = false) (wide : 0 < indent.tabSize)
    (found : entityBlock.search? text = some m)
    (content : m.named clause.group =
      String.ofList (before ++ '\n' :: (replicate k '\t' ++ '-' :: '-' :: (body ++ after))))
    (later : ∃ c ∈ before, isBlank c = false) (single : ∀ c ∈ body, isLineEnd c = false)
    (ends : ∀ c, after.head? = some c → isLineEnd c = true) :
    let column := clause.commentPlace (clause.columns (m.named clause.group))
    (∃ (head foot : String) (above below : List String),
      alignEntity indent text level = .ok (head ++ clause.frame level
        (above ++ (clause.commentLead level k column ++ trim (String.ofList ('-' :: '-' :: body))) :: below) ++ foot) ∧
      above.length = (lines (String.ofList (dropBlanks before ++ ['\n']))).length) ∧
    (clause.commentLead level k column = ruleLead level k column ↔ clause.FollowsRule level k column) := by
  intro column
  refine ⟨?_, clause.commentLead_eq_ruleLead_iff level k _⟩
  have levelled : indent.useSpaces = true → indent.tabSize ≠ 0 := by simp [tabbed]
  have written : m.named clause.group ≠ "" := by
    intro empty
    rw [content] at empty
    exact absurd (congrArg String.toList empty) (by simp)
  obtain ⟨head, foot, lines, rendered, aligned⟩ := Clause.exists_entity levelled level found clause written
  have inside : ∀ d ∈ (replicate k '\t' ++ ['-']) ++ '-' :: body, isLineEnd d = false := by
    simp only [forall_mem_append, forall_mem_cons, mem_singleton, forall_eq]
    refine ⟨⟨fun d member => ?_, rfl⟩, rfl, single⟩
    rw [eq_of_mem_replicate member]
    rfl
  obtain ⟨body', below, cut, same, single'⟩ := exists_line_of_trimmed later (c := '-') rfl inside ends
  have line : (replicate k '\t' ++ ['-']) ++ '-' :: body' = replicate k '\t' ++ '-' :: '-' :: body' := by simp
  have feedless : '\n' ∉ body' := fun feed => absurd (single' _ feed) (by decide)
  have comment : trim (String.ofList ('-' :: '-' :: body')) = trim (String.ofList ('-' :: '-' :: body)) := by
    have trimmed_dashes (cs : List Char) : trimmed ('-' :: '-' :: cs) = '-' :: '-' :: dropBlanksRight cs :=
      trimmed_append_solid (isTrimmed_of_solid (by decide : ∀ c ∈ ['-', '-'], isBlank c = false)) (by simp) cs
    rw [trim_eq, trim_eq, String.toList_ofList, String.toList_ofList, trimmed_dashes, trimmed_dashes, same]
  have split : Text.lines (trim (m.named clause.group)) =
      Text.lines (String.ofList (dropBlanks before ++ ['\n'])) ++
        String.ofList (replicate k '\t' ++ '-' :: '-' :: body') :: below.map String.ofList := by
    have form : before ++ '\n' :: (replicate k '\t' ++ '-' :: '-' :: (body ++ after)) =
        before ++ '\n' :: ((replicate k '\t' ++ ['-']) ++ '-' :: (body ++ after)) := by simp
    rw [lines_trim, content, String.toList_ofList, form, cut, map_append, map_cons, line, Text.lines,
      String.toList_ofList]
  rw [split] at rendered
  obtain ⟨above, rest, rfl, length⟩ := mapM_around rendered
    (clause.renderLine_of_comment tabbed wide level (clause.columns (m.named clause.group)) k feedless)
  rw [comment] at aligned
  exact ⟨head, foot, above, rest, aligned, length⟩

theorem comment_line_follows_rule_iff_deep :
    ∃ m, entityBlock.search? "entity e is\n\tport (\n\t\ta : in bit;\n\t\t\t\t-- deep\n\t\tb : out bit\n\t);\nend e;" = some m ∧
      (∃ (head foot : String) (above below : List String),
        alignEntity {} "entity e is\n\tport (\n\t\ta : in bit;\n\t\t\t\t-- deep\n\t\tb : out bit\n\t);\nend e;" (0 : Nat) =
          .ok (head ++ Clause.port.frame (0 : Nat) (above ++ (Clause.port.commentLead 0 4
            (Clause.port.commentPlace (Clause.port.columns (m.named "port"))) ++ trim "-- deep") :: below) ++ foot) ∧
        above.length = 1) ∧
      (Clause.port.commentLead 0 4 (Clause.port.commentPlace (Clause.port.columns (m.named "port"))) =
          ruleLead 0 4 (Clause.port.commentPlace (Clause.port.columns (m.named "port"))) ↔
        Clause.port.FollowsRule 0 4 (Clause.port.commentPlace (Clause.port.columns (m.named "port")))) := by
  have read : (entityBlock.search?
      "entity e is\n\tport (\n\t\ta : in bit;\n\t\t\t\t-- deep\n\t\tb : out bit\n\t);\nend e;").map (·.named "port") =
        some "\n\t\ta : in bit;\n\t\t\t\t-- deep\n\t\tb : out bit\n\t" := by
    rw [Regex.search?, String.toList_ofList]
    decide +kernel
  obtain ⟨m, found, content⟩ := Option.map_eq_some_iff.mp read
  have ends : ∀ c, "\n\t\tb : out bit\n\t".toList.head? = some c → isLineEnd c = true := by
    rintro c ⟨⟩
    rfl
  exact ⟨m, found, comment_line_follows_rule_iff .port {} 0 4 _ m "\n\t\ta : in bit;".toList " deep".toList
    "\n\t\tb : out bit\n\t".toList rfl (by decide) found content ⟨'a', by decide, rfl⟩ (by decide) ends⟩

/-- A comment line in the generic clause is set far behind the rows, and one in the port clause that is one tab deeper than
the rows is not set at the comment column. -/
theorem comment_lines_off_rule :
    alignEntity {} "entity e is\n\tgeneric (\n\t\ta : natural := 1;\n\t\t-- second\n\t\tb : natural := 2\n\t);\n\tport (\n\t\tc : in bit;\n\t\t\t-- last\n\t\td : out bit\n\t);\nend e;" 0 =
      .ok ("entity e is\n\tgeneric (\n\t\ta : natural := 1;\n" ++ "\t\t\t\t\t\t\t\t\t\t\t\t\t\t-- second" ++
        "\n\t\tb : natural := 2 \n\t);\n\tport (\n\t\tc : in  bit;\n" ++ "\t\t-- last" ++ "\n\t\td : out bit \n\t);\nend e;") ∧
    "\t\t\t\t\t\t\t\t\t\t\t\t\t\t-- second" ≠ ruleLead 0 2 14 ++ "-- second" ∧
    "\t\t-- last" ≠ ruleLead 0 3 13 ++ "-- last" := by
  refine ⟨Eq.trans (alignEntity_of_texts "entity e is\n" "\n\t\ta : natural := 1;\n\t\t-- second\n\t\tb : natural := 2\n\t"
    "\n\t\tc : in bit;\n\t\t\t-- last\n\t\td : out bit\n\t" "end e;"
    "\tgeneric (\n\t\ta : natural := 1;\n\t\t\t\t\t\t\t\t\t\t\t\t\t\t-- second\n\t\tb : natural := 2 \n\t);\n"
    "\tport (\n\t\tc : in  bit;\n\t\t-- last\n\t\td : out bit \n\t);\n" ?_ ?_ ?_) ?_, ?_, ?_⟩
  · rw [Regex.search?, String.toList_ofList]
    decide +kernel
  · rw [alignGenerics, Source.withoutComments, lines_trim, String.toList_ofList, Regex.matches_, String.toList_ofList]
    decide +kernel
  · rw [alignPorts, Source.withoutComments, lines_trim, String.toList_ofList, Regex.matches_, String.toList_ofList]
    decide +kernel
  · decide +kernel
  · decide
  · decide

end VhdlWorkbench.Layout

import VhdlWorkbench.Proofs.BindingLines
import VhdlWorkbench.Proofs.CommentLines

/-!
A port map that is laid out keeps its code if no line comment exposes anything.
-/

namespace VhdlWorkbench.Layout

open Text Source Design List

variable {last : Char} {before before' cs : List Char}

theorem marks_comment {comment : List Char} (closes : closesRow comment = true) (inside : InLine before)
    (inside' : InLine before') (apart : last = '-' → ∀ more, before' ++ comment ≠ '-' :: '-' :: more) :
    marksFrom feeds last [] (before ++ (if trimmed comment = [] then [] else ' ' :: trimmed comment)) =
      marksFrom feeds last [] (before' ++ comment) := by
  rcases closesRow_iff.mp closes with rfl | ⟨spaces, more, rfl, blank⟩
  · rw [if_pos (by rfl), append_nil, append_nil, marksFrom_of_blank inside.blank,
      marksFrom_of_blank inside'.blank]
  · obtain ⟨trail, whole, blanks⟩ := exists_dropBlanksRight ('-' :: more)
    have written : trimmed (spaces ++ ("--".toList ++ more)) = '-' :: dropBlanksRight ('-' :: more) := by
      rw [trimmed_append_left fun c member => isBlank_of_isSpace (blank c member)]
      exact trimmed_cons (by decide) ('-' :: more)
    have left : before ++ ' ' :: '-' :: dropBlanksRight ('-' :: more) =
        (before ++ [' ']) ++ '-' :: dropBlanksRight ('-' :: more) := by simp
    have right : before' ++ (spaces ++ ("--".toList ++ more)) =
        ((before' ++ spaces) ++ '-' :: dropBlanksRight ('-' :: more)) ++ trail := by
      simp [← whole]
    rw [written, if_neg (cons_ne_nil _ _), left, right, marksFrom_trail blanks]
    refine marksFrom_respace (inside.append inLine_space) (inside'.append (inLine_of_spaces blank)) ?_
    rintro c ⟨⟩
    by_cases dash : last = '-'
    · have some : before' ++ spaces ≠ [] := by
        intro none
        refine apart dash more ?_
        rw [← append_assoc, none]
        rfl
      exact Or.inr (Or.inr (by simp [some]))
    · exact Or.inr (Or.inl (by simp [joins, dash, show isWord '-' = false by decide]))

theorem marks_separator (last : Char) (body : List Char) (inside : InLine before) (inside' : InLine before')
    (apart : last = '-' → ∀ more,
      before' ++ ((if hasComma body then [','] else []) ++ commentPart body) ≠ '-' :: '-' :: more) :
    marksFrom feeds last [] (before ++ ((if hasComma body then ',' else ' ') ::
        (if (cells body).comment = [] then [] else ' ' :: (cells body).comment))) =
      marksFrom feeds last [] (before' ++ ((if hasComma body then [','] else []) ++ commentPart body)) := by
  have closes := closesRow_comment body
  rw [cells]
  cases comma : hasComma body with
  | true =>
    have comment : marksFrom feeds ',' []
        ([] ++ if trimmed (commentPart body) = [] then [] else ' ' :: trimmed (commentPart body)) =
          marksFrom feeds ',' [] ([] ++ commentPart body) :=
      marks_comment closes inLine_nil inLine_nil (by simp)
    refine Eq.trans ?_ (marksFrom_keep (by decide) before' comment)
    refine marksFrom_respace inside inside' ?_
    rintro c ⟨⟩
    exact Or.inr (Or.inl (not_joins_right (by decide) last))
  | false =>
    rw [comma] at apart
    have comment := marks_comment closes (inside.append inLine_space) inside' apart
    rw [append_assoc, singleton_append] at comment
    exact comment

theorem value_before_dashes {body front behind : List Char} (value : valuePart body = front ++ '-' :: behind)
    (more : List Char) : behind ++ valueRest body ≠ '-' :: '-' :: more := by
  intro dashes
  have early : front.length < (valuePart body).length := by simp [value]
  have rest : body.drop front.length = '-' :: '-' :: '-' :: more := by
    conv_lhs => rw [← valuePart_append_rest body, value, append_assoc, drop_left, cons_append, dashes]
  have goes := endsValue_early early
  rw [rest] at goes
  simp [endsValue, closesRow, isSpace] at goes

theorem marks_cells (bindWidth : Nat) {body : List Char} (single : '\n' ∉ body) :
    marksFrom feeds '>' [] (' ' :: (cells body).chars bindWidth) = marksFrom feeds '>' [] body := by
  obtain ⟨lead, trail, whole, blank, blank'⟩ := exists_trimmed (valuePart body)
  have parts := body_parts body
  have visible : '\n' ∉ valuePart body := fun member => single (by rw [parts]; exact mem_append_left _ member)
  have front : InLine lead := inLine_of_blank blank fun member => visible (by rw [whole]; exact mem_append_left _ member)
  have back : InLine trail := inLine_of_blank blank' fun member => visible (by rw [whole]; simp [member])
  have rest : (if hasComma body then [','] else []) ++ commentPart body = valueRest body := by
    apply append_cancel_left
    rw [valuePart_append_rest]
    exact parts.symm
  have line : body = lead ++ (trimmed (valuePart body) ++ (trail ++ valueRest body)) := by
    conv_lhs => rw [← valuePart_append_rest body, whole]
    simp
  obtain ⟨pad, padding, padded⟩ := exists_pad bindWidth (trimmed (valuePart body))
  have row : (cells body).chars bindWidth = trimmed (valuePart body) ++
      (pad ++ ((if hasComma body then ',' else ' ') ::
        (if (cells body).comment = [] then [] else ' ' :: (cells body).comment))) := by
    rw [Cells.chars, ← append_assoc, ← padded]
    rfl
  rw [row]
  conv_rhs => rw [line]
  rcases eq_nil_or_concat (trimmed (valuePart body)) with empty | ⟨value, c, form⟩
  · have after := marks_separator '>' body (inLine_space.append padding) (front.append back)
      fun dash => absurd dash (by decide)
    rw [rest, append_assoc lead] at after
    rw [empty]
    exact after
  · have solid : isBlank c = false :=
      (isTrimmed_trimmed (valuePart body)).closes c (by rw [form]; simp)
    have apart : c = '-' → ∀ more,
        trail ++ ((if hasComma body then [','] else []) ++ commentPart body) ≠ '-' :: '-' :: more := by
      rintro rfl more
      have value_eq : valuePart body = (lead ++ value) ++ '-' :: trail := by
        rw [form] at whole
        rw [whole]
        simp
      rw [rest]
      exact value_before_dashes value_eq more
    have after := marks_separator c body padding back apart
    rw [rest] at after
    rw [form, ← singleton_append, concat_eq_append]
    refine (marksFrom_respace inLine_space front fun d _ => Or.inr (Or.inl (not_joins_left (by decide) d))).trans ?_
    simp only [append_assoc, singleton_append]
    rw [← append_assoc lead, ← append_assoc lead]
    exact marksFrom_keep solid _ after

theorem marks_rowChars (portWidth bindWidth : Nat) (b : BindingText) (single : '\n' ∉ b.text) :
    marks feeds (rowChars portWidth bindWidth b.formal.chars (cells b.body)) = marks feeds b.text := by
  have gap : InLine b.gap.chars := inLine_of_blank b.gap.blank fun member => single (by simp [BindingText.text, member])
  obtain ⟨pad, padding, padded⟩ := exists_pad portWidth b.formal.chars
  obtain ⟨name, c, form⟩ : ∃ name c, b.formal.chars = name ++ [c] := by
    rcases eq_nil_or_concat b.formal.chars with empty | ⟨name, c, form⟩
    · exact absurd empty b.formal.nonempty
    · exact ⟨name, c, by rw [form, concat_eq_append]⟩
  have solid : isBlank c = false := b.formal.isTrimmed.closes c (by rw [form]; simp)
  have arrow : marksFrom feeds c [] ((pad ++ [' ']) ++ '=' :: '>' :: ' ' :: (cells b.body).chars bindWidth) =
      marksFrom feeds c [] (b.gap.chars ++ '=' :: '>' :: b.body) := by
    refine (marksFrom_respace (padding.append inLine_space) gap ?_).trans ?_
    · rintro d ⟨⟩
      exact Or.inr (Or.inl (not_joins_right (by decide) c))
    · have common (cs : List Char) : b.gap.chars ++ '=' :: '>' :: cs = (b.gap.chars ++ ['=']) ++ '>' :: cs := by simp
      rw [common, common]
      exact marksFrom_keep (by decide) _ (marks_cells bindWidth b.single)
  have row : rowChars portWidth bindWidth b.formal.chars (cells b.body) =
      name ++ c :: ((pad ++ [' ']) ++ '=' :: '>' :: ' ' :: (cells b.body).chars bindWidth) := by
    rw [rowChars, padded, form]
    simp
  have line : b.text = b.lead.chars ++ (name ++ c :: (b.gap.chars ++ '=' :: '>' :: b.body)) := by
    rw [BindingText.text, form]
    simp
  rw [row, line, marks_lead feeds_of_mem b.lead.blank]
  exact marksFrom_keep solid name arrow

theorem marks_layLine (level : Int) (portWidth bindWidth : Nat) {line : List Char} (single : '\n' ∉ line) :
    marks feeds (layLine level portWidth bindWidth line) = marks feeds line := by
  have lead : ∀ c ∈ (tabs level).toList, isBlank c = true := by
    intro c member
    rw [toList_tabs] at member
    rw [eq_of_mem_replicate member]
    decide
  by_cases row : ∃ b : BindingText, b.text = line
  · obtain ⟨b, rfl⟩ := row
    rw [layLine, renderBinding_of_binding level portWidth bindWidth b single, marks_lead feeds_of_mem lead, marks_rowChars _ _ b single]
  · rw [layLine, renderBinding_of_other level portWidth bindWidth single fun b same => row ⟨b, same⟩,
      marks_lead feeds_of_mem lead, marks_trimmed feeds_of_mem]

theorem marks_alignBinding (text : String) (level : Int) :
    marks feeds (alignBinding text level).toList = marks (lineBreaks true) text.toList := by
  rw [alignBinding_toList, marks_unlines, flatMap_map, ← marks_broken]
  refine flatMap_congr fun l member => ?_
  exact marks_layLine level _ _ (feed_not_mem_of_mem_linesFrom not_mem_nil member)

theorem code_alignBinding (text : String) (level : Int) : solids (withoutComments (alignBinding text level)).toList =
    (codeOf (marks (lineBreaks true) text.toList)).map Prod.fst := by
  rw [← marks_alignBinding text level, codeOf_marks, chars_shapes, withoutComments, String.toList_ofList]

/-- Laying out a map turns no comment text into code if no line comment exposes anything, and in a text without string
literals and block comments only then. -/
theorem binding_comments_kept (text : String) (level : Int) :
    ((∀ body ∈ lineComments text.toList, exposes true body = false) →
      solids (withoutComments (alignBinding text level)).toList = solids (withoutComments text).toList) ∧
    (IsSimple text.toList →
      (solids (withoutComments (alignBinding text level)).toList = solids (withoutComments text).toList ↔
        ∀ body ∈ lineComments text.toList, exposes true body = false)) := by
  rw [code_alignBinding, withoutComments, String.toList_ofList]
  refine ⟨fun hidden => ?_, codeOf_lineBreaks_iff⟩
  rw [codeOf_lineBreaks hidden, chars_shapes]

theorem binding_comments_kept_bracketed :
    IsSimple "a => b, -- first, (second)\nc => d".toList ∧
      (∀ body ∈ lineComments "a => b, -- first, (second)\nc => d".toList, exposes true body = false) ∧
      solids (withoutComments (alignBinding "a => b, -- first, (second)\nc => d" 1)).toList =
        solids (withoutComments "a => b, -- first, (second)\nc => d").toList := by
  have simple : IsSimple "a => b, -- first, (second)\nc => d".toList :=
    ⟨by decide, fun block => absurd (block.subset mem_cons_self) (by decide)⟩
  have hidden : ∀ body ∈ lineComments "a => b, -- first, (second)\nc => d".toList, exposes true body = false := by
    decide +kernel
  exact ⟨simple, hidden, ((binding_comments_kept _ 1).2 simple).2 hidden⟩

/-- A comma before a word in a comment breaks the comment. -/
theorem word_of_comment_becomes_code :
    solids (withoutComments (alignBinding "a => b, -- first, second\nc => d" 0)).toList = "a=>b,secondc=>d".toList ∧
      solids (withoutComments "a => b, -- first, second\nc => d").toList = "a=>b,c=>d".toList := by
  decide +kernel

end VhdlWorkbench.Layout

import VhdlWorkbench.Proofs.BindingCells
import VhdlWorkbench.Proofs.BindingColumns

/-!
The lines of a map: one that has been laid out keeps its form and is laid out in the same way again.
-/

namespace VhdlWorkbench.Layout

open Pattern Design List Option Text

variable {b : BindingText}

variable {l l' formal value : List Char} {level : Int} {portWidth bindWidth : Nat}

theorem rowLine_iff (b : BindingText) :
    RowLine b.text formal value ↔ b.formal.chars = formal ∧ (cells b.body).value = value := by
  refine ⟨?_, fun ⟨name, shown⟩ => ⟨b, rfl, name, shown⟩⟩
  rintro ⟨b', same, rfl, rfl⟩
  have stands {b' : BindingText} (same : b'.text = b.text) : StandsAt b.text.toArray 0 b' :=
    ⟨Or.inl rfl, [], by rw [textFrom_zero, append_nil, same], by simp [EndsLine]⟩
  obtain ⟨m, found, -, shows⟩ := matchAt_of_standsAt (stands rfl)
  obtain ⟨m', found', -, shows'⟩ := matchAt_of_standsAt (stands same)
  obtain rfl : m = m' := some.inj (found.symm.trans found')
  have value := String.ofList_injective (shows.bind.symm.trans shows'.bind)
  exact ⟨String.ofList_injective (shows.port.symm.trans shows'.port), congrArg trimmed value⟩

theorem Formal.nonempty (f : Formal) : f.chars ≠ [] := by
  obtain ⟨c, cs, form, -⟩ := f.exists_cons
  simp [form]

theorem trimmed_text (b : BindingText) : trimmed b.text =
    b.formal.chars ++ (b.gap.chars ++ ("=>".toList ++ dropBlanksRight b.body)) := by
  have closes : ∀ c, (b.gap.chars ++ "=>".toList).getLast? = some c → isBlank c = false := by
    rw [getLast?_append]
    rintro c ⟨⟩
    decide
  rw [BindingText.text, trimmed_append_left b.lead.blank,
    trimmed_append_solid b.formal.isTrimmed b.formal.nonempty, ← append_assoc b.gap.chars,
    dropBlanksRight_append_left closes, append_assoc]

theorem exists_text_of_trimmed (single : '\n' ∉ l) (same : trimmed b.text = trimmed l) :
    ∃ b' : BindingText, b'.text = l := by
  obtain ⟨lead, trail, whole, before, -⟩ := exists_trimmed l
  rw [← same, trimmed_text] at whole
  have visible : '\n' ∉ dropBlanksRight b.body ++ trail := by
    intro feed
    refine single ?_
    rw [whole]
    simp only [mem_append] at feed ⊢
    tauto
  exact ⟨⟨⟨lead, before⟩, b.formal, b.gap, _, visible⟩, by rw [whole]; simp [BindingText.text]⟩

theorem formalLine_iff : FormalLine l formal ↔ trimmed l = formal ∧ ∃ f : Formal, f.chars = formal := by
  constructor
  · rintro ⟨lead, gap, f, rfl, rfl⟩
    exact ⟨trimmed_eq lead.blank f.isTrimmed gap.blank, f, rfl⟩
  · rintro ⟨rfl, f, chars⟩
    obtain ⟨lead, trail, whole, before, behind⟩ := exists_trimmed l
    exact ⟨⟨lead, before⟩, ⟨trail, behind⟩, f, by rw [chars, ← whole], chars⟩

/-- Characters of which a formal name has one at most, and an arrow has two. -/
def inArrow (c : Char) : Bool :=
  c == '=' || c == '>'

theorem countP_inArrow_blank {cs : List Char} (blank : ∀ c ∈ cs, isBlank c = true) : cs.countP inArrow = 0 := by
  refine countP_eq_zero.mpr fun c member marks => ?_
  rcases (by simpa [inArrow] using marks : c = '=' ∨ c = '>') with rfl | rfl <;>
    exact absurd (blank _ member) (by decide)

theorem countP_inArrow_formal (f : Formal) : f.chars.countP inArrow ≤ 1 := by
  obtain ⟨name, index⟩ := f
  have named : name.chars.countP inArrow = 0 := by
    refine countP_eq_zero.mpr fun c member marks => ?_
    rcases (by simpa [inArrow] using marks : c = '=' ∨ c = '>') with rfl | rfl <;>
      exact absurd (name.wordy _ member) (by decide)
  cases index with
  | none =>
    rw [Formal.chars, named]
    omega
  | some i =>
    have slash : countP inArrow ((if i.slash then ['/'] else []) ++ [')']) = 0 := by
      split <;> decide
    rw [Formal.chars, countP_append, countP_append, named, countP_inArrow_blank i.gap.blank, FormalIndex.mark,
      countP_cons, countP_cons, slash]
    split <;> simp [inArrow]

theorem not_formalLine_text (b : BindingText) : ¬FormalLine b.text formal := by
  rintro ⟨lead, gap, f, same, -⟩
  have count := congrArg (countP inArrow) same
  have few := countP_inArrow_formal f
  have arrow : countP inArrow "=>".toList = 2 := by decide
  rw [BindingText.text] at count
  simp only [countP_append, countP_inArrow_blank lead.blank, countP_inArrow_blank gap.blank, arrow] at count
  omega

theorem blankLine_iff : BlankLine l ↔ trimmed l = [] :=
  trimmed_eq_nil_iff.symm

theorem arrowLine_iff : ArrowLine l value ↔ ∃ body, dropBlanks l = "=>".toList ++ body ∧ (cells body).value = value := by
  constructor
  · rintro ⟨lead, body, rfl, shown⟩
    refine ⟨body, ?_, shown⟩
    rw [dropBlanks_append lead.blank, dropBlanks_of_solid]
    rintro c ⟨⟩
    decide
  · rintro ⟨body, form, shown⟩
    obtain ⟨lead, whole, blank⟩ := exists_dropBlanks l
    exact ⟨⟨lead, blank⟩, body, by rw [← form, ← whole], shown⟩

/-- Two lines of the same form. -/
structure AlikeLines (l l' : List Char) : Prop where
  row : ∀ formal value, RowLine l formal value ↔ RowLine l' formal value
  formal : ∀ formal, FormalLine l formal ↔ FormalLine l' formal
  arrow : ∀ value, ArrowLine l value ↔ ArrowLine l' value
  blank : BlankLine l ↔ BlankLine l'

theorem arrowAhead_congr {ls ls' : List (List Char)} (alike : Forall₂ AlikeLines ls ls') :
    ArrowAhead value ls ↔ ArrowAhead value ls' := by
  induction alike with
  | nil => rfl
  | cons same _ ih => exact or_congr (same.arrow value) (and_congr same.blank ih)

theorem boundIn_congr {ls ls' : List (List Char)} (alike : Forall₂ AlikeLines ls ls') :
    BoundIn formal value ls ↔ BoundIn formal value ls' := by
  induction alike with
  | nil => rfl
  | cons same later ih =>
    exact or_congr (same.row formal value) (or_congr (and_congr (same.formal formal) (arrowAhead_congr later)) ih)

/-- The only blanks of a line are spaces and tabs. -/
def PlainLine (l : List Char) : Prop :=
  ∀ c ∈ l, isBlank c = true → isSpace c = true

theorem PlainLine.single (plain : PlainLine l) : '\n' ∉ l := fun feed =>
  absurd (plain '\n' feed (by decide)) (by decide)

/-- A line of a map once it has been laid out and the text around it has been trimmed. -/
def Settled (level : Int) (portWidth bindWidth : Nat) (l l' : List Char) : Prop :=
  ∃ lead trail, layLine level portWidth bindWidth l = lead ++ (l' ++ trail) ∧ (∀ c ∈ lead, isBlank c = true) ∧
    (∀ c ∈ trail, isBlank c = true) ∧ (trail = [] ∨ ∀ c, l.getLast? = some c → isBlank c = false)

theorem blank_tabs (level : Int) : ∀ c ∈ (tabs level).toList, isBlank c = true := by
  intro c member
  rw [toList_tabs] at member
  rw [eq_of_mem_replicate member]
  decide

theorem behind_blanks {lead lead' x y : List Char} (same : lead ++ y = lead' ++ x)
    (blank : ∀ c ∈ lead, isBlank c = true) (blank' : ∀ c ∈ lead', isBlank c = true)
    (opens : Stops isBlank y) : ∃ g : Gap, x = g.chars ++ y := by
  obtain ⟨g, whole, blank''⟩ := exists_dropBlanks x
  refine ⟨⟨g, blank''⟩, ?_⟩
  have cut := congrArg dropBlanks same
  rw [dropBlanks_append blank, dropBlanks_append blank', dropBlanks_of_solid opens] at cut
  rw [cut, ← whole]

theorem eq_of_settled_other (settled : Settled level portWidth bindWidth l l') (single : '\n' ∉ l)
    (other : ∀ b : BindingText, b.text ≠ l) : ∃ g : Gap, l' = g.chars ++ trimmed l := by
  obtain ⟨lead, trail, whole, before, behind, -⟩ := settled
  have trim := isTrimmed_trimmed l
  rw [layLine, renderBinding_of_other level portWidth bindWidth single other] at whole
  obtain ⟨g, split⟩ := behind_blanks whole (blank_tabs level) before trim.opens
  by_cases blank : trimmed l = []
  · rw [blank, append_nil] at split
    exact ⟨⟨l', fun c member => g.blank c (by simp [← split, member])⟩, by rw [blank, append_nil]⟩
  · cases trail with
    | nil => exact ⟨g, by rw [← split, append_nil]⟩
    | cons c trail =>
      have last := congrArg getLast? split
      rw [getLast?_append, getLast?_append, getLast?_eq_some_getLast (cons_ne_nil c trail),
        getLast?_eq_some_getLast blank, some_or, some_or] at last
      have solid := trim.closes _ (getLast?_eq_some_getLast blank)
      rw [← some.inj last, behind _ (getLast_mem _)] at solid
      exact Bool.noConfusion solid

/-- A row has the characters of its line, and others of which only spaces are blank. -/
theorem mem_rowChars {c : Char} (member : c ∈ rowChars portWidth bindWidth b.formal.chars (cells b.body)) :
    c ∈ b.text ∨ c ∈ [' ', '=', '>', ','] := by
  have formal (inside : c ∈ b.formal.chars) : c ∈ b.text := by simp [BindingText.text, inside]
  have body (inside : c ∈ b.body) : c ∈ b.text := by simp [BindingText.text, inside]
  have pad {n : Nat} (inside : c ∈ replicate n ' ') : c ∈ [' ', '=', '>', ','] := by
    simp [eq_of_mem_replicate inside]
  simp only [rowChars, Cells.chars, padTo, mem_append] at member
  rcases member with (inside | spaces) | arrow | (inside | spaces) | ends
  · exact Or.inl (formal inside)
  · exact Or.inr (pad spaces)
  · exact Or.inr ((by decide : ∀ d ∈ " => ".toList, d ∈ [' ', '=', '>', ',']) c arrow)
  · exact Or.inl (body (mem_of_mem_valuePart (mem_of_mem_trimmed inside)))
  · exact Or.inr (pad spaces)
  · rcases mem_cons.mp ends with sep | inside
    · refine Or.inr ?_
      split at sep <;> simp [sep]
    · split at inside
      · exact absurd inside not_mem_nil
      · rcases mem_cons.mp inside with rfl | comment
        · simp
        · exact Or.inl (body (mem_of_mem_commentPart (mem_of_mem_trimmed comment)))

theorem plain_layLine (plain : PlainLine l) : PlainLine (layLine level portWidth bindWidth l) := by
  intro c member blank
  rw [layLine] at member
  by_cases row : ∃ b : BindingText, b.text = l
  · obtain ⟨b, rfl⟩ := row
    rw [renderBinding_of_binding level portWidth bindWidth b plain.single, mem_append, toList_tabs] at member
    rcases member with tab | inside
    · rw [eq_of_mem_replicate tab]
      decide
    · rcases mem_rowChars inside with kept | mark
      · exact plain c kept blank
      · simp only [mem_cons, not_mem_nil, or_false] at mark
        rcases mark with rfl | rfl | rfl | rfl
        · decide
        all_goals exact absurd blank (by decide)
  · rw [renderBinding_of_other level portWidth bindWidth plain.single fun b same => row ⟨b, same⟩, mem_append,
      toList_tabs] at member
    rcases member with tab | inside
    · rw [eq_of_mem_replicate tab]
      decide
    · exact plain c (mem_of_mem_trimmed inside) blank

theorem rowChars_eq (portWidth bindWidth : Nat) (f : Formal) (row : Cells) :
    ∃ pad : Gap, rowChars portWidth bindWidth f.chars row =
    f.chars ++ (pad.chars ++ ("=>".toList ++ ' ' :: row.chars bindWidth)) := by
  refine ⟨⟨replicate (portWidth - f.chars.length) ' ' ++ [' '], fun c member => ?_⟩, ?_⟩
  · have space : c = ' ' := by
      rcases mem_append.mp member with inside | ends
      · exact eq_of_mem_replicate inside
      · exact mem_singleton.mp ends
    rw [space]
    decide
  · simp [rowChars, padTo]

theorem getLast?_of_text {c : Char} (last : b.body.getLast? = some c) : b.text.getLast? = some c := by
  simp only [BindingText.text, getLast?_append, last, some_or]

theorem split_behind_arrow {front x trail rest : List Char} (same : x ++ trail = front ++ ("=>".toList ++ rest))
    (blank : ∀ c ∈ trail, isBlank c = true) : ∃ body, x = front ++ ("=>".toList ++ body) ∧ rest = body ++ trail := by
  rw [← append_assoc] at same
  rcases append_eq_append_iff.mp same with ⟨more, form, ends⟩ | ⟨body, form, ends⟩
  · rcases eq_nil_or_concat more with rfl | ⟨more, c, rfl⟩
    · exact ⟨[], by simpa using form.symm, by simpa using ends.symm⟩
    · -- The blanks would reach back to the arrow.
      have last := congrArg getLast? form
      rw [concat_eq_append, getLast?_append, getLast?_append, getLast?_append] at last
      obtain rfl : '>' = c := some.inj last
      exact absurd (blank '>' (by simp [ends])) (by decide)
  · exact ⟨body, by rw [form, append_assoc], ends⟩

theorem eq_of_settled_row (settled : Settled level portWidth bindWidth b.text l') (plain : PlainLine b.text) :
    ∃ b' : BindingText, b'.text = l' ∧ b'.formal = b.formal ∧ cells b'.body = cells b.body := by
  have laid : PlainLine (layLine level portWidth bindWidth b.text) := plain_layLine plain
  obtain ⟨lead, trail, whole, before, behind, closes⟩ := settled
  have spaces : ∀ c ∈ trail, isSpace c = true := fun c member =>
    laid c (by simp [whole, member]) (behind c member)
  have single := laid.single
  rw [whole] at single
  obtain ⟨pad, row⟩ := rowChars_eq portWidth bindWidth b.formal (cells b.body)
  rw [layLine, renderBinding_of_binding level portWidth bindWidth b plain.single, row] at whole
  obtain ⟨g, split⟩ := behind_blanks whole (blank_tabs level) before (b.formal.solid_head _)
  have arrow : l' ++ trail = (g.chars ++ (b.formal.chars ++ pad.chars)) ++
      ("=>".toList ++ ' ' :: (cells b.body).chars bindWidth) := by simpa using split
  obtain ⟨body, rfl, rest⟩ := split_behind_arrow arrow behind
  have visible : '\n' ∉ body := fun feed => single (by simp [feed])
  refine ⟨⟨g, b.formal, pad, body, visible⟩, by simp [BindingText.text], rfl, ?_⟩
  have tight : body.getLast? = some ',' → trail = [] :=
    tight_of_row rest behind (closes.imp_right fun solid c last => solid c (getLast?_of_text last))
  rw [← cells_trail spaces tight, ← rest]
  exact cells_row (fun c member => plain c (by simp [BindingText.text, member])) bindWidth

/-- A line opens with an arrow and ends in blanks behind a comma. -/
def looseComma (l : List Char) : Bool :=
  "=>".toList.isPrefixOf (trimmed l) && (trimmed l).getLast? == some ',' && l.getLast? != some ','

/-- The actual value of a line that opens with an arrow does not depend on the blanks around it. -/
theorem arrowLine_trimmed (plain : PlainLine l) (tight : looseComma l = false) (g : Gap) :
    ArrowLine l value ↔ ArrowLine (g.chars ++ trimmed l) value := by
  obtain ⟨lead, whole, -⟩ := exists_dropBlanks l
  obtain ⟨trail, line, behind⟩ := exists_dropBlanksRight (dropBlanks l)
  replace line : dropBlanks l = trimmed l ++ trail := line
  rw [line] at whole
  have same {body : List Char} (arrow : trimmed l = "=>".toList ++ body) : cells (body ++ trail) = cells body := by
    refine cells_trail (fun c member => plain c (by rw [whole]; simp [member]) (behind c member)) fun last => ?_
    have comma : l.getLast? = some ',' := by
      rw [looseComma, arrow, getLast?_append, last] at tight
      simpa [isPrefixOf] using tight
    cases trail with
    | nil => rfl
    | cons c trail =>
      have blank := behind _ (getLast_mem (cons_ne_nil c trail))
      rw [whole, getLast?_append, getLast?_append, getLast?_eq_some_getLast (cons_ne_nil c trail),
        some_or, some_or] at comma
      rw [some.inj comma] at blank
      exact absurd blank (by decide)
  have left : dropBlanks (g.chars ++ trimmed l) = trimmed l := by
    rw [dropBlanks_append g.blank, dropBlanks_of_solid (isTrimmed_trimmed l).opens]
  rw [arrowLine_iff, arrowLine_iff, left, line]
  constructor
  · rintro ⟨body, form, rfl⟩
    have ahead : trimmed l ++ trail = [] ++ ("=>".toList ++ body) := form
    obtain ⟨body, arrow, rfl⟩ := split_behind_arrow ahead behind
    exact ⟨body, arrow, by rw [same arrow]⟩
  · rintro ⟨body, form, rfl⟩
    exact ⟨body ++ trail, by rw [form, append_assoc], by rw [same form]⟩

theorem not_arrowLine_text (b : BindingText) : ¬ArrowLine b.text value := by
  rw [arrowLine_iff]
  rintro ⟨body, form, -⟩
  obtain ⟨c, head, wordy⟩ := b.word_head []
  rw [append_nil, form] at head
  obtain rfl : '=' = c := some.inj head
  exact absurd wordy (by decide)

theorem not_blankLine_text (b : BindingText) : ¬BlankLine b.text := by
  rw [blankLine_iff, trimmed_text]
  simp

theorem trimmed_behind (g : Gap) (l : List Char) : trimmed (g.chars ++ trimmed l) = trimmed l := by
  rw [trimmed_append_left g.blank, trimmed_of_isTrimmed (isTrimmed_trimmed l)]

theorem other_of_trimmed (g : Gap) (single : '\n' ∉ l) (other : ∀ b : BindingText, b.text ≠ l)
    (b : BindingText) : b.text ≠ g.chars ++ trimmed l := by
  intro same
  obtain ⟨b', row⟩ := exists_text_of_trimmed single (b := b) (by rw [same, trimmed_behind])
  exact other b' row

section

variable (settled : Settled level portWidth bindWidth l l') (plain : PlainLine l)
include settled plain

theorem alike_of_settled (tight : looseComma l = false) : AlikeLines l l' := by
  by_cases row : ∃ b : BindingText, b.text = l
  · obtain ⟨b, rfl⟩ := row
    obtain ⟨b', rfl, formal, same⟩ := eq_of_settled_row settled plain
    refine ⟨fun f v => ?_, fun f => ?_, fun v => ?_, ?_⟩
    · rw [rowLine_iff, rowLine_iff, formal, same]
    · exact iff_of_false (not_formalLine_text b) (not_formalLine_text b')
    · exact iff_of_false (not_arrowLine_text b) (not_arrowLine_text b')
    · exact iff_of_false (not_blankLine_text b) (not_blankLine_text b')
  · have other (b : BindingText) : b.text ≠ l := fun same => row ⟨b, same⟩
    obtain ⟨g, rfl⟩ := eq_of_settled_other settled plain.single other
    refine ⟨fun f v => ?_, fun f => ?_, fun v => arrowLine_trimmed plain tight g, ?_⟩
    · exact iff_of_false (fun ⟨b, same, _⟩ => other b same)
        (fun ⟨b, same, _⟩ => other_of_trimmed g plain.single other b same)
    · rw [formalLine_iff, formalLine_iff, trimmed_behind]
    · rw [blankLine_iff, blankLine_iff, trimmed_behind]

theorem layLine_of_settled (single : '\n' ∉ l') :
    layLine level portWidth bindWidth l' = layLine level portWidth bindWidth l := by
  by_cases row : ∃ b : BindingText, b.text = l
  · obtain ⟨b, rfl⟩ := row
    obtain ⟨b', rfl, formal, same⟩ := eq_of_settled_row settled plain
    rw [layLine, layLine, renderBinding_of_binding _ _ _ b' single, renderBinding_of_binding _ _ _ b plain.single,
      formal,
      same]
  · have other (b : BindingText) : b.text ≠ l := fun same => row ⟨b, same⟩
    obtain ⟨g, rfl⟩ := eq_of_settled_other settled plain.single other
    rw [layLine, layLine, renderBinding_of_other _ _ _ plain.single other, renderBinding_of_other _ _ _ single
      (other_of_trimmed g plain.single other), trimmed_behind]

theorem opensGroup_of_settled (closed : opensGroup l = false) : opensGroup l' = false := by
  by_cases row : ∃ b : BindingText, b.text = l
  · obtain ⟨b, rfl⟩ := row
    obtain ⟨b', rfl, -⟩ := eq_of_settled_row settled plain
    obtain ⟨c, cs, form, wordy⟩ := b'.formal.exists_cons
    rw [opensGroup, trimmed_text, form, cons_append, head?_cons, beq_eq_false_iff_ne]
    rintro ⟨⟩
    exact absurd wordy (by decide)
  · obtain ⟨g, rfl⟩ := eq_of_settled_other settled plain.single fun b same => row ⟨b, same⟩
    rwa [opensGroup, trimmed_behind]

end

end VhdlWorkbench.Layout

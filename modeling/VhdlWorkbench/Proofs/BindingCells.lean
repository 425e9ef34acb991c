import VhdlWorkbench.Proofs.BindingText

/-!
The cells of a row are read back from the row.
-/

namespace VhdlWorkbench.Layout

open List Option Text Bool

variable {c : Char} {cs x y z w : List Char}

theorem closesRow_spaces (blank : ∀ c ∈ cs, isSpace c = true) : closesRow cs = cs.isEmpty := by
  rw [closesRow, dropWhile_eq_nil_iff.mpr blank]
  exact or_false _

/-- Whether a row closes before a solid character is settled up to there, if no dash follows. -/
theorem closesRow_append (solid : ∃ c ∈ w, isSpace c = false) (other : z.head? ≠ some '-') :
    closesRow (w ++ z) = closesRow w := by
  obtain ⟨c, member, solid⟩ := solid
  have nonempty (y : List Char) : (w ++ y).isEmpty = false :=
    isEmpty_eq_false_iff.mpr (append_ne_nil_of_left_ne_nil (ne_nil_of_mem member) y)
  have alone := nonempty []
  rw [append_nil] at alone
  cases form : w.dropWhile isSpace with
  | nil => exact absurd (dropWhile_eq_nil_iff.mp form c member) (by simp [solid])
  | cons a more =>
    rw [closesRow, closesRow, dropWhile_append, form, nonempty, alone]
    cases more with
    | nil =>
      cases z with
      | nil => rfl
      | cons d z =>
        have dash : ('-' == d) = false := beq_eq_false_iff_ne.mpr fun same => other (congrArg some same.symm)
        simp [isPrefixOf, dash]
    | cons b more => simp [isPrefixOf]

theorem closesRow_of_append (closes : closesRow w = true) (nonempty : w ≠ []) (y : List Char) :
    closesRow (w ++ y) = true := by
  rcases closesRow_iff.mp closes with rfl | ⟨spaces, more, rfl, blank⟩
  · exact absurd rfl nonempty
  · exact closesRow_iff.mpr (Or.inr ⟨spaces, more ++ y, by simp, blank⟩)

theorem cells_of_closesRow (closes : closesRow cs = true) : cells cs = ⟨[], false, trimmed cs⟩ := by
  have value : valuePart cs = [] := by
    cases cs with
    | nil => rfl
    | cons c cs => rw [valuePart, if_pos (by rw [endsValue, closes, Bool.true_or])]
  have rest : valueRest cs = cs := by rw [valueRest, value, length_nil, drop_zero]
  have comma : hasComma cs = false := by
    rw [hasComma, rest]
    rcases closesRow_iff.mp closes with rfl | ⟨spaces, more, rfl, blank⟩
    · rfl
    · cases spaces with
      | nil => rfl
      | cons c spaces =>
        rcases (by simpa [isSpace] using blank c mem_cons_self : c = ' ' ∨ c = '\t') with rfl | rfl <;> rfl
  rw [cells, value, comma, commentPart, comma, if_neg Bool.false_ne_true, rest]
  rfl

theorem valueRest_of_goes (goes : endsValue (c :: cs) = false) : valueRest (c :: cs) = valueRest cs := by
  rw [valueRest, valuePart, if_neg (by simp [goes])]
  rfl

theorem valuePart_of_goes (goes : endsValue (c :: cs) = false) : valuePart (c :: cs) = c :: valuePart cs := by
  rw [valuePart, if_neg (by simp [goes])]

theorem cells_of_rest (value : trimmed (valuePart x) = trimmed (valuePart y))
    (rest : valueRest x = valueRest y) : cells x = cells y := by
  unfold cells commentPart hasComma
  rw [value, rest]

theorem cells_space (space : isSpace c = true) (cs : List Char) : cells (c :: cs) = cells cs := by
  cases ends : endsValue (c :: cs) with
  | false =>
    refine cells_of_rest ?_ (valueRest_of_goes ends)
    rw [valuePart_of_goes ends]
    exact trimmed_cons_blank (isBlank_of_isSpace space) _
  | true =>
    have closes : closesRow (c :: cs) = true := by
      rcases (by simpa [isSpace] using space : c = ' ' ∨ c = '\t') with rfl | rfl <;> simpa [endsValue] using ends
    have later : closesRow cs = true := by
      rcases closesRow_iff.mp closes with none | ⟨spaces, more, form, blank⟩
      · exact absurd none (cons_ne_nil c cs)
      · cases spaces with
        | nil =>
          obtain rfl := (cons.inj form).1
          exact absurd space (by decide)
        | cons d spaces =>
          exact closesRow_iff.mpr (Or.inr ⟨spaces, more, (cons.inj form).2, fun c member =>
            blank c (mem_cons_of_mem d member)⟩)
    rw [cells_of_closesRow closes, cells_of_closesRow later, trimmed_cons_blank (isBlank_of_isSpace space)]

theorem cells_spaces {spaces : List Char} (blank : ∀ c ∈ spaces, isSpace c = true) (cs : List Char) :
    cells (spaces ++ cs) = cells cs := by
  induction spaces with
  | nil => rfl
  | cons c spaces ih =>
    rw [forall_mem_cons] at blank
    rw [cons_append, cells_space blank.1, ih blank.2]

section Trail

variable {trail : List Char}

theorem closesRow_trail (blank : ∀ c ∈ trail, isSpace c = true) (nonempty : y ≠ []) :
    closesRow (y ++ trail) = closesRow y := by
  by_cases spaces : ∀ c ∈ y, isSpace c = true
  · rw [closesRow_spaces spaces, closesRow_spaces fun c member => (mem_append.mp member).elim (spaces c) (blank c)]
    cases y with
    | nil => exact absurd rfl nonempty
    | cons c y => rfl
  · refine closesRow_append (by simpa using spaces) fun dash => ?_
    exact absurd (blank '-' (mem_of_head? dash)) (by decide)

/-- Spaces behind the rest of a line do not decide whether the value is over, unless they follow a comma. -/
theorem endsValue_trail (blank : ∀ c ∈ trail, isSpace c = true)
    (tight : (c :: x).getLast? = some ',' → trail = []) : endsValue (c :: (x ++ trail)) = endsValue (c :: x) := by
  have closes : closesRow (c :: (x ++ trail)) = closesRow (c :: x) := closesRow_trail (y := c :: x) blank (by simp)
  rw [endsValue, endsValue, closes]
  cases x with
  | nil =>
    by_cases comma : c = ','
    · rw [tight (by rw [comma]; rfl)]
      rfl
    · simp [beq_eq_false_iff_ne.mpr comma]
  | cons d x => exact congrArg _ (congrArg _ (closesRow_trail (y := d :: x) blank (by simp)))

theorem ne_comma_of_isSpace (space : isSpace c = true) : (c == ',') = false := by
  rcases (by simpa [isSpace] using space : c = ' ' ∨ c = '\t') with rfl | rfl <;> rfl

section

variable (blank : ∀ c ∈ trail, isSpace c = true)
include blank

theorem valueRest_spaces : valueRest trail = [] := by
  have ends := endsValue_rest trail
  have inside : ∀ c ∈ valueRest trail, isSpace c = true := fun c member => blank c (mem_of_mem_drop member)
  cases form : valueRest trail with
  | nil => rfl
  | cons c rest =>
    rw [form] at ends inside
    rw [endsValue, closesRow_spaces inside] at ends
    simp [ne_comma_of_isSpace (inside c mem_cons_self)] at ends

/-- Spaces behind the rest of a line, unless they follow a comma, are spaces behind its value or its comment. -/
theorem parts_trail (tight : x.getLast? = some ',' → trail = []) : ∃ more rest, (∀ c ∈ more, isSpace c = true) ∧
      (∀ c ∈ rest, isSpace c = true) ∧ valuePart (x ++ trail) = valuePart x ++ more ∧
      valueRest (x ++ trail) = valueRest x ++ rest ∧ (valueRest x = [] → rest = []) := by
  induction x with
  | nil =>
    have whole := valuePart_append_rest trail
    rw [valueRest_spaces blank, append_nil] at whole
    exact ⟨trail, [], blank, by simp, whole, valueRest_spaces blank, fun _ => rfl⟩
  | cons c x ih =>
    have same := endsValue_trail blank tight
    rw [cons_append]
    cases ends : endsValue (c :: x) with
    | false =>
      rw [ends] at same
      have later : x.getLast? = some ',' → trail = [] := by
        intro last
        refine tight ?_
        rw [getLast?_cons, last]
        rfl
      obtain ⟨more, rest, first, second, value, behind, none⟩ := ih later
      rw [valuePart_of_goes ends, valuePart_of_goes same, valueRest_of_goes ends, valueRest_of_goes same, value, behind]
      exact ⟨more, rest, first, second, rfl, rfl, none⟩
    | true =>
      rw [ends] at same
      refine ⟨[], trail, by simp, blank, ?_, ?_, ?_⟩
      · rw [valuePart, if_pos same, valuePart, if_pos ends, append_nil]
      · rw [valueRest, valuePart, if_pos same, valueRest, valuePart, if_pos ends]
        rfl
      · rw [valueRest, valuePart, if_pos ends]
        exact fun none => absurd none (cons_ne_nil c x)

theorem cells_trail (tight : x.getLast? = some ',' → trail = []) : cells (x ++ trail) = cells x := by
  obtain ⟨more, rest, first, second, value, behind, none⟩ := parts_trail blank tight
  have blanks {cs : List Char} (spaces : ∀ c ∈ cs, isSpace c = true) : ∀ c ∈ cs, isBlank c = true :=
    fun c member => isBlank_of_isSpace (spaces c member)
  unfold cells commentPart hasComma
  rw [value, behind, trimmed_append_right (blanks first)]
  cases form : valueRest x with
  | nil => rw [none form, append_nil]
  | cons c cs =>
    rw [cons_append, head?_cons, tail_cons, head?_cons, tail_cons]
    split
    · rw [trimmed_append_right (blanks second)]
    · rw [← cons_append, trimmed_append_right (blanks second)]

end

end Trail

section Row

variable {body : List Char} {bindWidth : Nat}

theorem valuePart_append (goes : ∀ u w, x = u ++ w → w ≠ [] → endsValue (w ++ z) = false) :
    valuePart (x ++ z) = x ++ valuePart z ∧ valueRest (x ++ z) = valueRest z := by
  induction x with
  | nil => exact ⟨rfl, rfl⟩
  | cons c x ih =>
    have here := goes [] (c :: x) rfl (cons_ne_nil c x)
    obtain ⟨value, rest⟩ := ih fun u w split => goes (c :: u) w (by rw [split]; rfl)
    rw [cons_append] at here ⊢
    rw [valuePart_of_goes here, valueRest_of_goes here, value, rest]
    exact ⟨rfl, rfl⟩

def Cells.behind (row : Cells) (bindWidth : Nat) : List Char :=
  replicate (bindWidth - row.value.length) ' ' ++ ((if row.comma then ',' else ' ') ::
    (if row.comment = [] then [] else ' ' :: row.comment))

theorem Cells.chars_eq (row : Cells) (bindWidth : Nat) :
    row.chars bindWidth = row.value ++ row.behind bindWidth := by
  rw [Cells.chars, padTo, append_assoc]
  rfl

theorem closesRow_trimmed (body : List Char) : closesRow (cells body).comment = true := by
  rcases closesRow_iff.mp (closesRow_comment body) with none | ⟨spaces, more, form, blank⟩
  · rw [(comment_eq_nil_iff body).mpr none]
    rfl
  · have comment : (cells body).comment = "--".toList ++ dropBlanksRight more := by
      rw [cells, form, trimmed_append_left fun c member => isBlank_of_isSpace (blank c member)]
      exact trimmed_append_solid (isTrimmed_of_solid (by decide)) (by decide) more
    exact closesRow_iff.mpr (Or.inr ⟨[], _, comment, by simp⟩)

theorem isTrimmed_value (body : List Char) : Text.IsTrimmed (cells body).value :=
  isTrimmed_trimmed _

theorem isTrimmed_comment (body : List Char) : Text.IsTrimmed (cells body).comment :=
  isTrimmed_trimmed _

theorem closesRow_commentColumn (body : List Char) :
    closesRow (if (cells body).comment = [] then [] else ' ' :: (cells body).comment) = true ∧
      trimmed (if (cells body).comment = [] then [] else ' ' :: (cells body).comment) = (cells body).comment := by
  split
  · next none => exact ⟨rfl, none.symm⟩
  · next some =>
    constructor
    · rcases closesRow_iff.mp (closesRow_trimmed body) with none | ⟨spaces, more, form, blank⟩
      · exact absurd none some
      · exact closesRow_iff.mpr (Or.inr ⟨' ' :: spaces, more, by rw [form]; rfl, by simpa [isSpace] using blank⟩)
    · rw [trimmed_cons_blank (by decide), trimmed_of_isTrimmed (isTrimmed_comment body)]

theorem cells_behind (body : List Char) (bindWidth : Nat) :
    cells ((cells body).behind bindWidth) = ⟨[], (cells body).comma, (cells body).comment⟩ := by
  obtain ⟨closes, comment⟩ := closesRow_commentColumn body
  rw [Cells.behind, cells_spaces fun c member => by rw [eq_of_mem_replicate member]; decide]
  cases comma : (cells body).comma with
  | false => rw [if_neg Bool.false_ne_true, cells_space (by decide), cells_of_closesRow closes, comment]
  | true =>
    have ends (cs : List Char) (closes : closesRow cs = true) : cells (',' :: cs) = ⟨[], true, trimmed cs⟩ := by
      have closed : endsValue (',' :: cs) = true := by simp [endsValue, closes]
      have value : valuePart (',' :: cs) = [] := by rw [valuePart, if_pos closed]
      rw [cells, commentPart, hasComma, valueRest, value]
      rfl
    rw [if_pos rfl, ends _ closes, comment]

theorem value_goes (body : List Char) : ∃ lead trail, valuePart body = lead ++ ((cells body).value ++ trail) ∧
    (∀ c ∈ trail, isBlank c = true) ∧
    ∀ u w, (cells body).value = u ++ w → w ≠ [] → endsValue (w ++ (trail ++ valueRest body)) = false := by
  obtain ⟨lead, trail, form, -, blank⟩ := exists_trimmed (valuePart body)
  have whole := valuePart_append_rest body
  rw [form] at whole
  refine ⟨lead, trail, form, blank, fun u w split nonempty => ?_⟩
  have split : trimmed (valuePart body) = u ++ w := split
  have early : (lead ++ u).length < (valuePart body).length := by
    have := length_pos_iff.mpr nonempty
    rw [form, split]
    simp only [length_append]
    omega
  have goes := endsValue_early early
  rwa [← whole, split, append_assoc, append_assoc, append_assoc, ← append_assoc lead,
    drop_left]
    at goes

theorem mem_of_mem_valuePart (member : c ∈ valuePart body) : c ∈ body := by
  rw [← valuePart_append_rest body]
  exact mem_append_left _ member

theorem mem_of_mem_commentPart (member : c ∈ commentPart body) : c ∈ body := by
  rw [body_parts body]
  exact mem_append_right _ (mem_append_right _ member)

theorem valueRest_of_comma (comma : (cells body).comma = false) : valueRest body = commentPart body := by
  rw [commentPart, show hasComma body = false from comma, if_neg Bool.false_ne_true]

theorem closesRow_mark {spaces : List Char} (blank : ∀ c ∈ spaces, isSpace c = true) (space : isSpace c = false)
    (other : c ≠ '-') (cs : List Char) : closesRow (spaces ++ c :: cs) = false := by
  rw [closesRow, dropWhile_append_of_pos blank, dropWhile_cons_of_neg (by simp [space])]
  simp [isPrefixOf, other.symm]

theorem behind_head (row : Cells) (bindWidth : Nat) : (row.behind bindWidth).head? ≠ some '-' := by
  unfold Cells.behind
  cases bindWidth - row.value.length with
  | zero => cases row.comma <;> simp
  | succ n => simp [replicate_succ]

theorem closesRow_behind {trail : List Char} (blank : ∀ c ∈ trail, isSpace c = true)
    (goes : closesRow (trail ++ valueRest body) = false) (bindWidth : Nat) :
    closesRow ((cells body).behind bindWidth) = false := by
  have spaces : ∀ c ∈ replicate (bindWidth - (cells body).value.length) ' ', isSpace c = true := by
    intro c member
    rw [eq_of_mem_replicate member]
    decide
  rw [Cells.behind]
  cases comma : (cells body).comma with
  | true => exact closesRow_mark spaces (by decide) (by decide) _
  | false =>
    have none : (cells body).comment = [] := by
      rw [comment_eq_nil_iff]
      by_contra some
      rcases closesRow_iff.mp (closesRow_comment body) with none | ⟨more, dashes, form, blank'⟩
      · exact some none
      · have closes : closesRow (trail ++ valueRest body) = true := by
          rw [valueRest_of_comma comma, form, ← append_assoc]
          exact closesRow_iff.mpr (Or.inr ⟨trail ++ more, dashes, rfl, fun c member =>
            (mem_append.mp member).elim (blank c) (blank' c)⟩)
        simp [goes] at closes
    rw [none, closesRow_spaces]
    · simp
    · intro c member
      rcases mem_append.mp member with inside | last
      · exact spaces c inside
      · simp only [false_eq_true, if_false, if_true, mem_singleton] at last
        rw [last]
        decide

theorem row_goes (plain : ∀ c ∈ body, isBlank c = true → isSpace c = true) (bindWidth : Nat)
    (u w : List Char) (split : (cells body).value = u ++ w) (nonempty : w ≠ []) :
    endsValue (w ++ (cells body).behind bindWidth) = false := by
  obtain ⟨lead, trail, form, blank, goes⟩ := value_goes body
  have inside : ∀ c ∈ trail, isSpace c = true := fun c member =>
    plain c (mem_of_mem_valuePart (by simp [form, member])) (blank c member)
  have solid {u w : List Char} (split : (cells body).value = u ++ w) (nonempty : w ≠ []) :
      ∃ c ∈ w, isSpace c = false := by
    refine ⟨w.getLast nonempty, getLast_mem nonempty, ?_⟩
    have closes := (isTrimmed_value body).closes (w.getLast nonempty)
      (by rw [split, getLast?_append, getLast?_eq_some_getLast nonempty, some_or])
    cases space : isSpace (w.getLast nonempty) with
    | false => rfl
    | true => simp [isBlank_of_isSpace space] at closes
  have stays {u w : List Char} (split : (cells body).value = u ++ w) (nonempty : w ≠ [])
      (old : closesRow (w ++ (trail ++ valueRest body)) = false) :
      closesRow (w ++ (cells body).behind bindWidth) = false := by
    rw [closesRow_append (solid split nonempty) (behind_head _ _)]
    cases closes : closesRow w with
    | false => rfl
    | true => rwa [closesRow_of_append closes nonempty] at old
  have old := goes u w split nonempty
  rw [endsValue, Bool.or_eq_false_iff] at old ⊢
  refine ⟨stays split nonempty old.1, ?_⟩
  cases w with
  | nil => exact absurd rfl nonempty
  | cons c w =>
    simp only [cons_append, head?_cons, tail_cons] at old ⊢
    by_cases comma : c = ','
    · have later : closesRow (w ++ (trail ++ valueRest body)) = false := by simpa [comma] using old.2
      cases w with
      | nil =>
        rw [nil_append] at later ⊢
        rw [closesRow_behind inside later, Bool.and_false]
      | cons d w => rw [stays (u := u ++ [c]) (by rw [split]; simp) (cons_ne_nil d w) later, Bool.and_false]
    · simp [comma]

theorem cells_row (plain : ∀ c ∈ body, isBlank c = true → isSpace c = true) (bindWidth : Nat) :
    cells (' ' :: (cells body).chars bindWidth) = cells body := by
  obtain ⟨value, rest⟩ := valuePart_append (row_goes plain bindWidth)
  have behind := cells_behind body bindWidth
  have blank : ∀ c ∈ valuePart ((cells body).behind bindWidth), isBlank c = true :=
    trimmed_eq_nil_iff.mp (congrArg Cells.value behind)
  have shown : trimmed (valuePart ((cells body).value ++ (cells body).behind bindWidth)) = (cells body).value := by
    rw [value, trimmed_append_right blank, trimmed_of_isTrimmed (isTrimmed_value body)]
  have parts : cells ((cells body).value ++ (cells body).behind bindWidth) =
      ⟨(cells body).value, (cells ((cells body).behind bindWidth)).comma,
        (cells ((cells body).behind bindWidth)).comment⟩ := by
    conv_lhs => rw [cells, shown, commentPart, hasComma, rest]
    rfl
  rw [cells_space (by decide), Cells.chars_eq, parts, behind]

/-- A comma that ends the value of a line without a separator has blanks behind it. -/
theorem blank_behind_comma (last : (cells body).value.getLast? = some ',') (comma : (cells body).comma = false)
    (none : (cells body).comment = []) : ∃ c, body.getLast? = some c ∧ isBlank c = true := by
  obtain ⟨lead, trail, form, blank, goes⟩ := value_goes body
  have rest : valueRest body = [] := by rw [valueRest_of_comma comma, (comment_eq_nil_iff body).mp none]
  obtain ⟨u, split⟩ := getLast?_eq_some_iff.mp last
  have whole := valuePart_append_rest body
  have goes := goes u [','] split (by simp)
  rw [rest, append_nil] at goes whole
  cases trail with
  | nil => exact absurd goes (by decide)
  | cons c trail =>
    have line : body = lead ++ ((cells body).value ++ c :: trail) := whole.symm.trans form
    refine ⟨(c :: trail).getLast (by simp), ?_, blank _ (getLast_mem _)⟩
    conv_lhs => rw [line]
    rw [getLast?_append, getLast?_append, getLast?_eq_some_getLast (cons_ne_nil c trail),
      some_or, some_or]

theorem bare_of_blank_end (bindWidth : Nat)
    (blank : ∀ c, ((cells body).chars bindWidth).getLast? = some c → isBlank c = true) :
    (cells body).comma = false ∧ (cells body).comment = [] := by
  rw [Cells.chars, getLast?_append] at blank
  by_cases none : (cells body).comment = []
  · refine ⟨?_, none⟩
    cases comma : (cells body).comma with
    | false => rfl
    | true => exact absurd (blank ',' (by simp [none, comma])) (by decide)
  · have ends := getLast?_eq_some_getLast none
    have solid := (isTrimmed_comment body).closes _ ends
    rw [if_neg none, getLast?_cons, getLast?_cons, ends] at blank
    exact absurd (blank _ rfl) (by simp [solid])

/-- Cutting the blanks off the end of a row does not bare a comma of the value, unless the line ends in blanks too. -/
theorem tight_of_row {body' trail : List Char} (split : ' ' :: (cells body).chars bindWidth = body' ++ trail)
    (blank : ∀ c ∈ trail, isBlank c = true)
    (closes : trail = [] ∨ ∀ c, body.getLast? = some c → isBlank c = false)
    (last : body'.getLast? = some ',') : trail = [] := by
  by_contra some
  have bare : (cells body).comma = false ∧ (cells body).comment = [] := by
    refine bare_of_blank_end bindWidth fun c ends => ?_
    have same := congrArg getLast? split
    rw [getLast?_cons, ends, getLast?_append, getLast?_eq_some_getLast some] at same
    obtain rfl : c = trail.getLast some := by simpa using same
    exact blank _ (getLast_mem some)
  have spaces : ∀ c ∈ replicate (bindWidth - (cells body).value.length) ' ' ++ [' '], isBlank c = true := by
    intro c member
    have space : c = ' ' := by
      rcases mem_append.mp member with inside | ends
      · exact eq_of_mem_replicate inside
      · exact mem_singleton.mp ends
    rw [space]
    decide
  have solid : ∀ c, body'.getLast? = Option.some c → isBlank c = false := by
    rw [last]
    rintro c ⟨⟩
    decide
  have cut := congrArg dropBlanksRight split
  rw [Cells.chars_eq, Cells.behind, bare.1, bare.2, if_neg Bool.false_ne_true, if_pos rfl, ← cons_append,
    dropBlanksRight_append spaces, dropBlanksRight_append blank, dropBlanksRight_of_solid solid] at cut
  by_cases none : (cells body).value = []
  · rw [none] at cut
    rw [← cut] at last
    exact absurd last (by decide)
  · have ends := getLast?_eq_some_getLast none
    have solid := (isTrimmed_value body).closes _ ends
    rw [dropBlanksRight_of_solid fun c head => by
      rw [getLast?_cons, ends] at head
      rw [← Option.some.inj head]
      exact solid] at cut
    rw [← cut, getLast?_cons, ends] at last
    obtain ⟨c, line, loose⟩ := blank_behind_comma (ends.trans last) bare.1 bare.2
    exact absurd (closes.resolve_left some c line) (by simp [loose])

end Row

end VhdlWorkbench.Layout

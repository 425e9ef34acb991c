import Mathlib.Data.List.Forall2
import Mathlib.Data.List.TakeWhile
import VhdlWorkbench.Text.Lines
import VhdlWorkbench.Proofs.Texts

/-!
Trimmed stretches of characters and the lines of a text.
-/

namespace VhdlWorkbench.Text

open List Option

variable {c : Char}

variable {cs lead trail : List Char}

def trimmed (cs : List Char) : List Char :=
  dropBlanksRight (dropBlanks cs)

/-- A text neither begins nor ends with a blank. -/
structure IsTrimmed (cs : List Char) : Prop where
  opens : ∀ c, cs.head? = some c → isBlank c = false
  closes : ∀ c, cs.getLast? = some c → isBlank c = false

theorem trim_eq (s : String) : trim s = String.ofList (trimmed s.toList) := rfl

theorem lines_trim (text : String) :
    lines (trim text) = (linesFrom [] (trimmed text.toList)).map String.ofList := by
  rw [lines, trim_eq, String.toList_ofList]

theorem dropBlanks_append (blank : ∀ c ∈ lead, isBlank c = true) (cs : List Char) :
    dropBlanks (lead ++ cs) = dropBlanks cs :=
  dropWhile_append_of_pos blank

theorem dropBlanks_of_solid (opens : ∀ c, cs.head? = some c → isBlank c = false) : dropBlanks cs = cs := by
  cases cs with
  | nil => rfl
  | cons c cs => exact dropWhile_cons_of_neg (by simp [opens c rfl])

theorem dropBlanksRight_append (blank : ∀ c ∈ trail, isBlank c = true) (cs : List Char) :
    dropBlanksRight (cs ++ trail) = dropBlanksRight cs := by
  rw [dropBlanksRight, reverse_append, dropWhile_append_of_pos (by simpa using blank), dropBlanksRight]

theorem dropBlanksRight_of_solid (closes : ∀ c, cs.getLast? = some c → isBlank c = false) : dropBlanksRight cs = cs := by
  have kept : dropBlanks cs.reverse = cs.reverse := dropBlanks_of_solid (by simpa using closes)
  rw [dropBlanks] at kept
  rw [dropBlanksRight, kept, reverse_reverse]

theorem exists_dropBlanks (cs : List Char) : ∃ lead, cs = lead ++ dropBlanks cs ∧ ∀ c ∈ lead, isBlank c = true :=
  ⟨cs.takeWhile isBlank, takeWhile_append_dropWhile.symm, fun _ => mem_takeWhile_imp⟩

theorem exists_dropBlanksRight (cs : List Char) :
    ∃ trail, cs = dropBlanksRight cs ++ trail ∧ ∀ c ∈ trail, isBlank c = true := by
  obtain ⟨lead, whole, blank⟩ := exists_dropBlanks cs.reverse
  refine ⟨lead.reverse, ?_, by simpa using blank⟩
  rw [dropBlanksRight, ← reverse_append]
  exact reverse_eq_iff.mp whole

theorem solid_head_dropBlanks (head : (dropBlanks cs).head? = some c) : isBlank c = false := by
  have stops := head?_dropWhile_not isBlank cs
  rw [dropBlanks] at head
  rw [head] at stops
  simpa using stops

theorem solid_last_dropBlanksRight (last : (dropBlanksRight cs).getLast? = some c) : isBlank c = false := by
  rw [dropBlanksRight, getLast?_reverse] at last
  exact solid_head_dropBlanks last

theorem isTrimmed_trimmed (cs : List Char) : IsTrimmed (trimmed cs) := by
  refine ⟨fun c head => ?_, fun c => solid_last_dropBlanksRight⟩
  obtain ⟨trail, whole, -⟩ := exists_dropBlanksRight (dropBlanks cs)
  rw [trimmed] at head
  have first : (dropBlanks cs).head? = some c := by rw [whole, head?_append, head, some_or]
  exact solid_head_dropBlanks first

theorem exists_trimmed (cs : List Char) : ∃ lead trail, cs = lead ++ (trimmed cs ++ trail) ∧
    (∀ c ∈ lead, isBlank c = true) ∧ ∀ c ∈ trail, isBlank c = true := by
  obtain ⟨lead, left, before⟩ := exists_dropBlanks cs
  obtain ⟨trail, right, behind⟩ := exists_dropBlanksRight (dropBlanks cs)
  exact ⟨lead, trail, by rw [trimmed, ← right, ← left], before, behind⟩

theorem head?_trimmed (cs : List Char) : (trimmed cs).head? = (dropBlanks cs).head? := by
  obtain ⟨trail, whole, blank⟩ := exists_dropBlanksRight (dropBlanks cs)
  replace whole : dropBlanks cs = trimmed cs ++ trail := whole
  cases form : trimmed cs with
  | cons c ds => rw [whole, form, cons_append, head?_cons, head?_cons]
  | nil =>
    cases trail with
    | nil => rw [whole, form, append_nil]
    | cons c trail =>
      have head : (dropBlanks cs).head? = some c := by rw [whole, form, nil_append, head?_cons]
      exact absurd (blank c mem_cons_self) (by simp [solid_head_dropBlanks head])

theorem mem_of_mem_trimmed (member : c ∈ trimmed cs) : c ∈ cs := by
  obtain ⟨lead, trail, whole, -⟩ := exists_trimmed cs
  rw [whole]
  exact mem_append_right _ (mem_append_left _ member)

theorem trimmed_eq (before : ∀ c ∈ lead, isBlank c = true) (trim : IsTrimmed cs)
    (behind : ∀ c ∈ trail, isBlank c = true) : trimmed (lead ++ (cs ++ trail)) = cs := by
  cases cs with
  | nil =>
    have left : dropBlanks (lead ++ trail) = [] :=
      dropWhile_eq_nil_iff.mpr (by simpa [or_imp, forall_and] using ⟨before, behind⟩)
    rw [nil_append, trimmed, left]
    rfl
  | cons c cs =>
    have left : dropBlanks (c :: cs ++ trail) = c :: cs ++ trail :=
      dropBlanks_of_solid fun d head => trim.opens d head
    rw [trimmed, dropBlanks_append before, left, dropBlanksRight_append behind, dropBlanksRight_of_solid trim.closes]

theorem trimmed_of_isTrimmed (trim : IsTrimmed cs) : trimmed cs = cs := by
  have whole : trimmed ([] ++ (cs ++ [])) = cs := trimmed_eq (by simp) trim (by simp)
  rwa [nil_append, append_nil] at whole

theorem trimmed_append_left (blank : ∀ c ∈ lead, isBlank c = true) (cs : List Char) :
    trimmed (lead ++ cs) = trimmed cs := by
  rw [trimmed, dropBlanks_append blank, trimmed]

theorem trimmed_cons_blank (blank : isBlank c = true) (cs : List Char) : trimmed (c :: cs) = trimmed cs := by
  rw [trimmed, dropBlanks, dropWhile_cons_of_pos blank, ← dropBlanks, trimmed]

theorem trimmed_append_right (blank : ∀ c ∈ trail, isBlank c = true) (cs : List Char) :
    trimmed (cs ++ trail) = trimmed cs := by
  obtain ⟨lead, more, whole, before, behind⟩ := exists_trimmed cs
  have joined : cs ++ trail = lead ++ (trimmed cs ++ (more ++ trail)) := by
    rw [← append_assoc (trimmed cs), ← append_assoc lead, ← whole]
  rw [joined]
  exact trimmed_eq before (isTrimmed_trimmed cs) fun c member =>
    (mem_append.mp member).elim (behind c) (blank c)

theorem dropBlanksRight_append_left (closes : ∀ c, cs.getLast? = some c → isBlank c = false) (ds : List Char) :
    dropBlanksRight (cs ++ ds) = cs ++ dropBlanksRight ds := by
  obtain ⟨trail, whole, blank⟩ := exists_dropBlanksRight ds
  have solid : ∀ c, (cs ++ dropBlanksRight ds).getLast? = some c → isBlank c = false := by
    intro c last
    rw [getLast?_append] at last
    cases right : (dropBlanksRight ds).getLast? with
    | none =>
      rw [right, none_or] at last
      exact closes c last
    | some d =>
      rw [right, some_or] at last
      exact solid_last_dropBlanksRight (right.trans last)
  conv_lhs => rw [whole, ← append_assoc]
  rw [dropBlanksRight_append blank, dropBlanksRight_of_solid solid]

theorem dropBlanks_append_of_mem (member : c ∈ cs) (solid : isBlank c = false) (ds : List Char) :
    dropBlanks (cs ++ ds) = dropBlanks cs ++ ds := by
  have some : (cs.dropWhile isBlank).isEmpty = false := by
    rw [isEmpty_eq_false_iff, Ne, dropWhile_eq_nil_iff]
    exact fun blank => absurd (blank c member) (by simp [solid])
  rw [dropBlanks, dropWhile_append, some, dropBlanks]
  rfl

theorem dropBlanksRight_append_of_mem (member : c ∈ cs) (solid : isBlank c = false) (ds : List Char) :
    dropBlanksRight (ds ++ cs) = ds ++ dropBlanksRight cs := by
  have left := dropBlanks_append_of_mem (mem_reverse.mpr member) solid ds.reverse
  rw [dropBlanks, dropBlanks] at left
  rw [dropBlanksRight, reverse_append, left, reverse_append, reverse_reverse, dropBlanksRight]

theorem trimmed_append_solid (trim : IsTrimmed cs) (nonempty : cs ≠ []) (ds : List Char) :
    trimmed (cs ++ ds) = cs ++ dropBlanksRight ds := by
  have left : dropBlanks (cs ++ ds) = cs ++ ds := by
    refine dropBlanks_of_solid fun c head => trim.opens c ?_
    rwa [head?_append_of_ne_nil _ nonempty] at head
  rw [trimmed, left, dropBlanksRight_append_left trim.closes]

theorem isTrimmed_of_solid (solid : ∀ c ∈ cs, isBlank c = false) : IsTrimmed cs :=
  ⟨fun c head => solid c (mem_of_mem_head? head), fun c last => solid c (mem_of_getLast? last)⟩

theorem trimmed_cons (solid : isBlank c = false) (cs : List Char) : trimmed (c :: cs) = c :: dropBlanksRight cs :=
  trimmed_append_solid (isTrimmed_of_solid (by simpa using solid)) (cons_ne_nil c []) cs

theorem trimmed_eq_nil_iff : trimmed cs = [] ↔ ∀ c ∈ cs, isBlank c = true := by
  constructor
  · intro empty
    obtain ⟨lead, trail, whole, before, behind⟩ := exists_trimmed cs
    rw [whole, empty, nil_append]
    exact fun c member => (mem_append.mp member).elim (before c) (behind c)
  · intro blank
    have whole := trimmed_append_right blank []
    rwa [nil_append] at whole

def solids (cs : List Char) : List Char :=
  cs.filter fun c => !isBlank c

@[simp] theorem solids_append (cs ds : List Char) : solids (cs ++ ds) = solids cs ++ solids ds :=
  filter_append cs ds

theorem mem_solids : c ∈ solids cs ↔ c ∈ cs ∧ isBlank c = false := by
  simp [solids]

theorem solids_of_blank (blank : ∀ c ∈ cs, isBlank c = true) : solids cs = [] := by
  simpa [solids, filter_eq_nil_iff] using blank

@[simp] theorem solids_trimmed (cs : List Char) : solids (trimmed cs) = solids cs := by
  obtain ⟨lead, trail, whole, before, behind⟩ := exists_trimmed cs
  conv_rhs => rw [whole]
  rw [solids_append, solids_append, solids_of_blank before, solids_of_blank behind, nil_append, append_nil]

theorem isBlank_of_isLineEnd (ends : isLineEnd c = true) : isBlank c = true := by
  simp only [isLineEnd, Bool.or_eq_true, Bool.and_eq_true, decide_eq_true_eq, beq_iff_eq] at ends
  rw [isBlank, inRanges_iff]
  simp only [blankRanges, mem_cons, exists_eq_or_imp]
  omega

theorem linesFrom_cons (line : List Char) (single : c = '\r' → cs.head? ≠ some '\n') : linesFrom line (c :: cs) =
      if isLineEnd c then line.reverse :: linesFrom [] cs else linesFrom (c :: line) cs := by
  rw [linesFrom]
  rintro rest rfl rfl
  exact single rfl rfl

theorem solids_linesFrom (line cs : List Char) : (linesFrom line cs).flatMap solids = solids (line.reverse ++ cs) := by
  have cut {c : Char} (ends : isLineEnd c = true) (cs : List Char) : solids (c :: cs) = solids cs := by
    simp [solids, isBlank_of_isLineEnd ends]
  fun_induction linesFrom line cs with
  | case1 line empty => simp [isEmpty_iff.mp empty, solids]
  | case2 line _ => simp
  | case3 line cs ih =>
    have ends : solids ('\r' :: '\n' :: cs) = solids cs := by rw [cut (by decide), cut (by decide)]
    rw [flatMap_cons, ih, solids_append line.reverse, ends]
    rfl
  | case4 line c cs unpaired ends ih =>
    rw [flatMap_cons, ih, solids_append line.reverse, cut ends]
    rfl
  | case5 line c cs unpaired goes ih => rw [ih, reverse_cons, append_assoc, singleton_append]

def unlines (ls : List (List Char)) : List Char :=
  ls.flatMap (· ++ ['\n'])

@[simp] theorem unlines_nil : unlines [] = [] := rfl

@[simp] theorem unlines_cons (l : List Char) (ls : List (List Char)) : unlines (l :: ls) = l ++ '\n' :: unlines ls := by
  simp [unlines]

theorem unlines_append (ls ms : List (List Char)) : unlines (ls ++ ms) = unlines ls ++ unlines ms :=
  flatMap_append

theorem solids_unlines (ls : List (List Char)) : solids (unlines ls) = ls.flatMap solids := by
  have feed (cs : List Char) : solids ('\n' :: cs) = solids cs := rfl
  induction ls with
  | nil => rfl
  | cons l ls ih => rw [unlines_cons, solids_append, feed, ih, flatMap_cons]

theorem feed_not_mem_of_mem_linesFrom {line l : List Char} (single : '\n' ∉ line) (member : l ∈ linesFrom line cs) :
    '\n' ∉ l := by
  fun_induction linesFrom line cs with
  | case1 => exact absurd member not_mem_nil
  | case2 => rwa [mem_singleton.mp member, mem_reverse]
  | case3 line cs ih =>
    rcases mem_cons.mp member with rfl | later
    · rwa [mem_reverse]
    · exact ih not_mem_nil later
  | case4 line c cs unpaired ends ih =>
    rcases mem_cons.mp member with rfl | later
    · rwa [mem_reverse]
    · exact ih not_mem_nil later
  | case5 line c cs unpaired goes ih =>
    refine ih (fun inside => ?_) member
    rcases mem_cons.mp inside with feed | before
    · exact goes (feed ▸ by decide)
    · exact single before

/-- The only blanks of a text are spaces, tabs and line feeds. -/
def PlainBlanks (cs : List Char) : Prop :=
  ∀ c ∈ cs, isBlank c = true → c = ' ' ∨ c = '\t' ∨ c = '\n'

instance (cs : List Char) : Decidable (PlainBlanks cs) :=
  inferInstanceAs (Decidable (∀ c ∈ cs, _))

theorem plainBlanks_cons : PlainBlanks (c :: cs) ↔ (isBlank c = true → c = ' ' ∨ c = '\t' ∨ c = '\n') ∧ PlainBlanks cs :=
  forall_mem_cons

theorem linesFrom_feed (line cs : List Char) : linesFrom line ('\n' :: cs) = line.reverse :: linesFrom [] cs :=
  linesFrom_cons line (by simp)

theorem linesFrom_inline {row : List Char} (single : ∀ c ∈ row, isLineEnd c = false) (line rest : List Char) :
    linesFrom line (row ++ rest) = linesFrom (row.reverse ++ line) rest := by
  induction row generalizing line with
  | nil => rfl
  | cons c row ih =>
    rw [forall_mem_cons] at single
    have goes : c = '\r' → (row ++ rest).head? ≠ some '\n' := by
      rintro rfl
      exact absurd single.1 (by decide)
    rw [cons_append, linesFrom_cons line goes, if_neg (by simp [single.1]), ih single.2]
    simp

theorem linesFrom_of_plain (plain : PlainBlanks (c :: cs)) (other : c ≠ '\n') (line : List Char) :
    linesFrom line (c :: cs) = linesFrom (c :: line) cs := by
  have goes : isLineEnd c ≠ true := by
    intro ends
    rcases (plainBlanks_cons.mp plain).1 (isBlank_of_isLineEnd ends) with rfl | rfl | rfl
    · exact absurd ends (by decide)
    · exact absurd ends (by decide)
    · exact other rfl
  rw [linesFrom_cons line, if_neg goes]
  rintro rfl
  exact absurd (by decide) goes

/-- A text that does not end in a line feed is its lines but for the last line feed. -/
theorem unlines_linesFrom {line : List Char} (plain : PlainBlanks cs)
    (last : (line.reverse ++ cs).getLast? = some c) (other : c ≠ '\n') :
    unlines (linesFrom line cs) = line.reverse ++ (cs ++ ['\n']) := by
  induction cs generalizing line with
  | nil =>
    have nonempty : line.isEmpty = false := by
      cases line with
      | nil => simp at last
      | cons d line => rfl
    simp [linesFrom, nonempty]
  | cons d cs ih =>
    have later := (plainBlanks_cons.mp plain).2
    by_cases feed : d = '\n'
    · subst feed
      have last' : ([].reverse ++ cs).getLast? = some c := by
        cases cs with
        | nil => exact absurd (by simpa using last.symm) other
        | cons e cs => simpa [getLast?_append, getLast?_cons] using last
      rw [linesFrom_feed, unlines_cons, ih later last']
      simp
    · rw [linesFrom_of_plain plain feed, ih later (by simpa using last)]
      simp

end VhdlWorkbench.Text

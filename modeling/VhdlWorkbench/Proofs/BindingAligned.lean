import VhdlWorkbench.Proofs.BindingLines
import VhdlWorkbench.Proofs.BrokenLines

/-!
A map that has been laid out stays as it is when it is laid out again.
-/

namespace VhdlWorkbench.Layout

open Text Design List Option
open Text (lines)

variable {cs : List Char} {text : String}

variable {l l' : List Char} {ls ls' : List (List Char)} {level : Int} {portWidth bindWidth : Nat}

section Breaks

theorem breakFree_of_not_mem (none : ',' ∉ cs) : BreakFree cs := by
  induction cs with
  | nil => trivial
  | cons c cs ih =>
    rw [mem_cons, not_or] at none
    exact ⟨fun comma => absurd comma.symm none.1, ih none.2⟩

theorem breakFree_trimmed (free : BreakFree cs) : BreakFree (trimmed cs) := by
  obtain ⟨lead, trail, whole, -⟩ := exists_trimmed cs
  rw [whole] at free
  exact free.of_append.2.of_append.1

theorem opensWord_of_closesRow (closes : closesRow cs = true) : opensWord cs = false := by
  rcases closesRow_iff.mp closes with rfl | ⟨spaces, more, rfl, blank⟩
  · rfl
  · rw [opensWord, dropWhile_append_of_pos blank]
    rfl

theorem breakFree_padTo (free : BreakFree cs) (width : Nat) : BreakFree (padTo width cs) := by
  refine breakFree_append free (breakFree_of_not_mem fun member => ?_) fun _ => ?_
  · exact absurd (eq_of_mem_replicate member) (by decide)
  · rw [opensWord, dropWhile_eq_nil_iff.mpr fun c member => by rw [eq_of_mem_replicate member]; decide]
    rfl

theorem breakFree_rowChars {b : BindingText} (free : BreakFree b.text) :
    BreakFree (rowChars portWidth bindWidth b.formal.chars (cells b.body)) := by
  have formal : BreakFree b.formal.chars := free.of_append.2.of_append.1
  have body : BreakFree b.body := free.of_append.2.of_append.2.of_append.2.of_append.2
  have value : BreakFree (cells b.body).value := by
    rw [← valuePart_append_rest b.body] at body
    exact breakFree_trimmed body.of_append.1
  have comment : BreakFree (cells b.body).comment := by
    rw [body_parts b.body] at body
    exact breakFree_trimmed body.of_append.2.of_append.2
  obtain ⟨closes, -⟩ := closesRow_commentColumn b.body
  have column : BreakFree (if (cells b.body).comment = [] then [] else ' ' :: (cells b.body).comment) := by
    split
    · trivial
    · exact ⟨fun comma => absurd comma (by decide), comment⟩
  have goes := opensWord_of_closesRow closes
  have ends : opensWord ((if (cells b.body).comma then ',' else ' ') ::
      (if (cells b.body).comment = [] then [] else ' ' :: (cells b.body).comment)) = false := by
    split
    · rfl
    · exact goes
  refine breakFree_append (breakFree_padTo formal portWidth) ?_ fun _ => rfl
  refine breakFree_append (breakFree_of_not_mem (by decide)) ?_ fun comma => absurd comma (by decide)
  exact breakFree_append (breakFree_padTo value bindWidth) ⟨fun _ => goes, column⟩ fun _ => ends

theorem breakFree_layLine (free : BreakFree l) (single : '\n' ∉ l) :
    BreakFree (layLine level portWidth bindWidth l) := by
  have none : ',' ∉ (tabs level).toList := by
    rw [toList_tabs]
    exact fun member => absurd (eq_of_mem_replicate member) (by decide)
  rw [layLine]
  by_cases row : ∃ b : BindingText, b.text = l
  · obtain ⟨b, rfl⟩ := row
    rw [renderBinding_of_binding level portWidth bindWidth b single]
    exact breakFree_append (breakFree_of_not_mem none) (breakFree_rowChars free) fun comma => absurd comma none
  · rw [renderBinding_of_other level portWidth bindWidth single fun b same => row ⟨b, same⟩]
    exact breakFree_append (breakFree_of_not_mem none) (breakFree_trimmed free) fun comma => absurd comma none

theorem breakFree_of_mem_unlines (free : BreakFree (Text.unlines ls)) : ∀ l ∈ ls, BreakFree l := by
  induction ls with
  | nil => simp
  | cons l ls ih =>
    rw [unlines_cons] at free
    exact forall_mem_cons.mpr ⟨free.of_append.1, ih free.of_append.2.2⟩

end Breaks

section Settling

/-- A line that has been laid out, less blanks before it. -/
def Begins (level : Int) (portWidth bindWidth : Nat) (l m : List Char) : Prop :=
  ∃ lead, layLine level portWidth bindWidth l = lead ++ m ∧ ∀ c ∈ lead, isBlank c = true

theorem exists_solid_of_begins {m : List Char} (begins : Begins level portWidth bindWidth l m)
    (single : '\n' ∉ l) (solid : ∃ c ∈ l, isBlank c = false) : ∃ c ∈ m, isBlank c = false := by
  obtain ⟨c, member, solid⟩ := solid
  obtain ⟨lead, whole, blank⟩ := begins
  have kept : solids m = solids l := by
    rw [← solids_renderBinding level portWidth bindWidth single, ← layLine, whole, solids_append, solids_of_blank blank,
      nil_append]
  exact ⟨c, (mem_solids.mp (kept ▸ mem_solids.mpr ⟨member, solid⟩)).1, solid⟩

theorem exists_settled_right {ms : List (List Char)}
    (begins : Forall₂ (Begins level portWidth bindWidth) ls ms) (single : ∀ l ∈ ls, '\n' ∉ l) (nonempty : ls ≠ [])
    (last : ∀ l, ls.getLast? = some l → ∃ c, l.getLast? = some c ∧ isBlank c = false) :
    ∃ ls', Text.unlines ls' = dropBlanksRight (Text.unlines ms) ++ ['\n'] ∧ (∃ c ∈ Text.unlines ms, isBlank c = false) ∧
      Forall₂ (Settled level portWidth bindWidth) ls ls' := by
  induction begins with
  | nil => exact absurd rfl nonempty
  | @cons l m ls ms first later ih =>
    rw [forall_mem_cons] at single
    cases later with
    | nil =>
      obtain ⟨c, ends, solid⟩ := last l rfl
      obtain ⟨d, member, solid'⟩ := exists_solid_of_begins first single.1 ⟨c, mem_of_getLast? ends, solid⟩
      obtain ⟨lead, whole, blank⟩ := first
      obtain ⟨trail, cut, blank'⟩ := exists_dropBlanksRight m
      refine ⟨[dropBlanksRight m], ?_, ⟨d, by simp [member], solid'⟩,
        .cons ⟨lead, trail, ?_, blank, blank', Or.inr ?_⟩ .nil⟩
      · rw [unlines_cons, unlines_cons, unlines_nil, dropBlanksRight_append (by decide)]
      · rw [whole, ← cut]
      · intro e same
        rw [ends] at same
        rwa [← some.inj same]
    | @cons l₂ m₂ ls ms second later =>
      obtain ⟨ls', lines, ⟨d, member, solid⟩, settled⟩ := ih single.2 (cons_ne_nil l₂ ls) fun l ends =>
        last l (by rw [getLast?_cons_cons, ends])
      obtain ⟨lead, whole, blank⟩ := first
      have inside : d ∈ '\n' :: Text.unlines (m₂ :: ms) := mem_cons_of_mem _ member
      refine ⟨m :: ls', ?_, ⟨d, by rw [unlines_cons]; exact mem_append_right m inside, solid⟩,
        .cons ⟨lead, [], by rw [whole, append_nil], blank, by simp, Or.inl rfl⟩ settled⟩
      have cut := dropBlanksRight_append_of_mem member solid ['\n']
      rw [unlines_cons, lines, unlines_cons m, dropBlanksRight_append_of_mem inside solid, append_assoc]
      exact congrArg (m ++ ·) (congrArg (· ++ ['\n']) cut.symm)

theorem exists_settled (level : Int) (portWidth bindWidth : Nat) (single : ∀ l ∈ ls, '\n' ∉ l) (nonempty : ls ≠ [])
    (first : ∀ l, ls.head? = some l → ∃ c ∈ l, isBlank c = false)
    (last : ∀ l, ls.getLast? = some l → ∃ c, l.getLast? = some c ∧ isBlank c = false) :
    trimmed (Text.unlines (ls.map (layLine level portWidth bindWidth))) ≠ [] ∧
      ∃ ls', Text.unlines ls' = trimmed (Text.unlines (ls.map (layLine level portWidth bindWidth))) ++ ['\n'] ∧
        Forall₂ (Settled level portWidth bindWidth) ls ls' := by
  cases ls with
  | nil => exact absurd rfl nonempty
  | cons l ls =>
    have whole (l : List Char) : Begins level portWidth bindWidth l (layLine level portWidth bindWidth l) :=
      ⟨[], rfl, by simp⟩
    obtain ⟨c, member, solid⟩ := exists_solid_of_begins (whole l) (single l mem_cons_self) (first l rfl)
    obtain ⟨lead, split, blank⟩ := exists_dropBlanks (layLine level portWidth bindWidth l)
    have begins : Forall₂ (Begins level portWidth bindWidth) (l :: ls)
        (dropBlanks (layLine level portWidth bindWidth l) :: ls.map (layLine level portWidth bindWidth)) := by
      refine .cons ⟨lead, split, blank⟩ ?_
      rw [forall₂_map_right_iff]
      exact forall₂_same.mpr fun l _ => whole l
    obtain ⟨ls', lines, -, settled⟩ := exists_settled_right begins single nonempty last
    refine ⟨fun none => ?_, ls', ?_, settled⟩
    · exact absurd (trimmed_eq_nil_iff.mp none c (by simp [member])) (by simp [solid])
    rw [lines, map_cons, unlines_cons, unlines_cons, trimmed, dropBlanks_append_of_mem member solid]

end Settling

/-- The lines of a text that are laid out without reading a formal name or a value in another way afterwards. -/
def Firm (l : List Char) : Prop :=
  opensGroup l = false ∧ looseComma l = false

theorem firm_broken (plain : PlainBlanks text.toList) (firm : ∀ l ∈ linesFrom [] text.toList, Firm l) :
    ∀ l ∈ linesFrom [] (broken text), Firm l := by
  refine known_broken ?_ ?_ ?_ ?_ plain firm
  · rintro lead l blank ⟨closed, tight⟩
    rw [opensGroup, trimmed_append_left blank] at closed
    rw [looseComma, trimmed_append_left blank] at tight
    refine ⟨closed, ?_⟩
    cases l with
    | nil => rfl
    | cons c l =>
      rw [getLast?_append_of_ne_nil _ (cons_ne_nil c l)] at tight
      exact tight
  · rintro trail l blank ⟨closed, tight⟩
    rw [opensGroup, trimmed_append_right blank] at closed
    rw [looseComma, trimmed_append_right blank] at tight
    refine ⟨closed, ?_⟩
    cases trail with
    | nil => rwa [append_nil] at tight
    | cons c trail =>
      have loose : ((l ++ c :: trail).getLast? != some ',') = true := by
        have ends := blank _ (getLast_mem (cons_ne_nil c trail))
        rw [getLast?_append, getLast?_eq_some_getLast (cons_ne_nil c trail), some_or, bne_iff_ne]
        intro comma
        rw [some.inj comma] at ends
        exact absurd ends (by decide)
      rw [loose, Bool.and_true] at tight
      rw [looseComma, tight, Bool.false_and]
  · intro c l wordy
    have other {d : Char} (mark : isWord d = false) : d ≠ c := by
      rintro rfl
      simp [wordy] at mark
    rw [Firm, opensGroup, looseComma, trimmed_cons (isBlank_of_isWord wordy)]
    refine ⟨beq_eq_false_iff_ne.mpr fun same => other (by decide) (some.inj same).symm, ?_⟩
    simp [isPrefixOf, beq_eq_false_iff_ne.mpr (other (d := '=') (by decide))]
  · rintro x y ⟨closed, -⟩
    have whole : dropBlanks (x ++ ',' :: y) = dropBlanks (x ++ [',']) ++ y := by
      rw [append_cons, dropBlanks_append_of_mem (mem_append_right x mem_cons_self) (by decide)]
    have nonempty : dropBlanks (x ++ [',']) ≠ [] := fun none =>
      absurd (dropWhile_eq_nil_iff.mp none ',' (by simp)) (by decide)
    rw [opensGroup, head?_trimmed, whole, head?_append_of_ne_nil _ nonempty, ← head?_trimmed] at closed
    exact ⟨closed, by simp [looseComma]⟩

theorem bindingWidth_congr {cs' : List Char} (alike : Forall₂ AlikeLines ls ls')
    (lines : Text.unlines ls = cs ++ ['\n'])
    (lines' : Text.unlines ls' = cs' ++ ['\n']) (single : ∀ l ∈ ls, '\n' ∉ l) (single' : ∀ l ∈ ls', '\n' ∉ l)
    (closed : ∀ l ∈ ls, opensGroup l = false) (closed' : ∀ l ∈ ls', opensGroup l = false) :
    bindingWidth cs' "port" = bindingWidth cs "port" ∧ bindingWidth cs' "bind" = bindingWidth cs "bind" := by
  have same (formal value : List Char) :
      (∃ b, Writes cs' b ∧ b.formal.chars = formal ∧ (cells b.body).value = value) ↔
        ∃ b, Writes cs b ∧ b.formal.chars = formal ∧ (cells b.body).value = value := by
    rw [← boundIn_iff lines single closed, ← boundIn_iff lines' single' closed', boundIn_congr alike]
  have all (Q : List Char → List Char → Prop) : (∀ b, Writes cs' b → Q b.formal.chars (cells b.body).value) ↔
      ∀ b, Writes cs b → Q b.formal.chars (cells b.body).value := by
    constructor
    · intro each b written
      obtain ⟨b', written', name, shown⟩ := (same _ _).mpr ⟨b, written, rfl, rfl⟩
      rw [← name, ← shown]
      exact each b' written'
    · intro each b written
      obtain ⟨b', written', name, shown⟩ := (same _ _).mp ⟨b, written, rfl, rfl⟩
      rw [← name, ← shown]
      exact each b' written'
  constructor
  · refine eq_of_forall_ge_iff fun w => ?_
    rw [portWidth_le_iff, portWidth_le_iff]
    exact all fun formal _ => formal.length ≤ w
  · refine eq_of_forall_ge_iff fun w => ?_
    rw [bindWidth_le_iff, bindWidth_le_iff]
    exact all fun _ value => value.length ≤ w

theorem eq_of_unlines_eq (single : ∀ l ∈ ls, '\n' ∉ l) (single' : ∀ l ∈ ls', '\n' ∉ l)
    (same : Text.unlines ls = Text.unlines ls') : ls = ls' := by
  induction ls' generalizing ls with
  | nil =>
    cases ls with
    | nil => rfl
    | cons l ls => simp at same
  | cons l ls' ih =>
    rw [forall_mem_cons] at single'
    obtain ⟨ms, rfl, later⟩ := unlines_eq_line single (same.trans (unlines_cons l ls')) single'.1
    rw [ih (fun l member => single l (mem_cons_of_mem _ member)) single'.2 later]

theorem alignBinding_of_blank (blank : trimmed text.toList = []) (level : Int) :
    alignBinding text level = "" := by
  have nothing := alignBinding_toList text level
  rw [broken, blank] at nothing
  exact String.toList_eq_nil_iff.mp nothing

theorem plainLine_of_unlines (plain : PlainBlanks cs) (lines : Text.unlines ls = cs ++ ['\n'])
    (member : l ∈ ls) (single : '\n' ∉ l) : PlainLine l := by
  intro c inside blank
  have there : c ∈ cs ++ ['\n'] := lines ▸ mem_flatMap.mpr ⟨l, member, mem_append_left _ inside⟩
  have other : c ≠ '\n' := fun feed => single (feed ▸ inside)
  have kept : c ∈ cs := by simpa [other] using there
  rcases plain c kept blank with rfl | rfl | feed
  · decide
  · decide
  · exact absurd feed other

/-- The lines of a map that is not blank, as they are laid out. -/
structure Prepared (text : String) (ls : List (List Char)) : Prop where
  lines : Text.unlines ls = broken text ++ ['\n']
  plain : ∀ l ∈ ls, PlainLine l
  nonempty : ls ≠ []
  first : ∀ l, ls.head? = some l → ∃ c ∈ l, isBlank c = false
  last : ∀ l, ls.getLast? = some l → ∃ c, l.getLast? = some c ∧ isBlank c = false

theorem prepared_lines (plain : PlainBlanks text.toList) (some : trimmed text.toList ≠ []) :
    Prepared text (linesFrom [] (broken text)) := by
  have trim := isTrimmed_trimmed text.toList
  have plain' : PlainBlanks (broken text) :=
    plainBlanks_breakCommas (fun c member => plain c (mem_of_mem_trimmed member)) false
  obtain ⟨c, ends, solid⟩ : ∃ c, (broken text).getLast? = Option.some c ∧ isBlank c = false := by
    have ends := getLast?_eq_some_getLast some
    have solid := trim.closes _ ends
    exact ⟨_, getLast?_breakCommas ends solid false, solid⟩
  have lines : Text.unlines (linesFrom [] (broken text)) = broken text ++ ['\n'] := by
    refine unlines_linesFrom plain' (by simpa using ends) ?_
    rintro rfl
    exact absurd solid (by decide)
  refine ⟨lines, fun l member => plainLine_of_unlines plain' lines member
    (feed_not_mem_of_mem_linesFrom not_mem_nil member), fun none => ?_, fun l head => ?_, fun l tail => ?_⟩
  · rw [none] at lines
    simp at lines
  · obtain ⟨d, rest, form⟩ := exists_cons_of_ne_nil some
    have solid := trim.opens d (by rw [form]; rfl)
    obtain ⟨more, begins⟩ : ∃ more, broken text = d :: more := by
      rw [broken, form, breakCommas, if_neg (by simp)]
      split
      · next breaks =>
        rw [Bool.and_eq_true, beq_iff_eq] at breaks
        exact ⟨_, by rw [breaks.1]⟩
      · exact ⟨_, rfl⟩
    obtain ⟨later, split⟩ := head?_eq_some_iff.mp head
    rw [split, unlines_cons, begins] at lines
    cases l with
    | nil =>
      obtain rfl : '\n' = d := (cons.inj lines).1
      exact absurd solid (by decide)
    | cons e l =>
      obtain rfl : e = d := (cons.inj lines).1
      exact ⟨e, mem_cons_self, solid⟩
  · obtain ⟨init, split⟩ := getLast?_eq_some_iff.mp tail
    rw [split, unlines_append, unlines_cons, unlines_nil, ← append_assoc] at lines
    rw [← append_inj_left' lines rfl, getLast?_append] at ends
    cases l with
    | cons e l =>
      rw [getLast?_eq_some_getLast (cons_ne_nil e l), some_or] at ends
      exact ⟨c, (getLast?_eq_some_getLast (cons_ne_nil e l)).trans ends, solid⟩
    | nil =>
      rcases eq_nil_or_concat init with rfl | ⟨init, x, rfl⟩
      · simp at ends
      · obtain rfl : '\n' = c := by simpa [unlines_append] using ends
        exact absurd solid (by decide)

/-- What a settled line keeps of its line. -/
structure Kept (level : Int) (portWidth bindWidth : Nat) (l l' : List Char) : Prop where
  alike : AlikeLines l l'
  plain : PlainLine l'
  closed : opensGroup l' = false
  laid : layLine level portWidth bindWidth l' = layLine level portWidth bindWidth l

theorem kept_of_settled (settled : Settled level portWidth bindWidth l l') (plain : PlainLine l)
    (firm : Firm l) : Kept level portWidth bindWidth l l' := by
  have plain' : PlainLine l' := by
    obtain ⟨lead, trail, whole, -⟩ := settled
    have laid : PlainLine (layLine level portWidth bindWidth l) := plain_layLine plain
    exact fun c member => laid c (by simp [whole, member])
  exact ⟨alike_of_settled settled plain firm.2, plain', opensGroup_of_settled settled plain firm.1,
    layLine_of_settled settled plain plain'.single⟩

theorem forall₂_kept (settled : Forall₂ (Settled level portWidth bindWidth) ls ls')
    (plain : ∀ l ∈ ls, PlainLine l) (firm : ∀ l ∈ ls, Firm l) :
    Forall₂ (Kept level portWidth bindWidth) ls ls' := by
  induction settled with
  | nil => exact .nil
  | cons first later ih =>
    rw [forall_mem_cons] at plain firm
    exact .cons (kept_of_settled first plain.1 firm.1) (ih plain.2 firm.2)

theorem map_layLine_of_kept (kept : Forall₂ (Kept level portWidth bindWidth) ls ls') :
    ls'.map (layLine level portWidth bindWidth) = ls.map (layLine level portWidth bindWidth) := by
  induction kept with
  | nil => rfl
  | cons first later ih => rw [map_cons, map_cons, first.laid, ih]

theorem plain_closed_of_kept (kept : Forall₂ (Kept level portWidth bindWidth) ls ls') :
    ∀ l ∈ ls', PlainLine l ∧ opensGroup l = false := by
  induction kept with
  | nil => simp
  | cons first later ih => exact forall_mem_cons.mpr ⟨⟨first.plain, first.closed⟩, ih⟩

theorem broken_again {again : String} (first : Prepared text ls)
    (out : again.toList = Text.unlines (ls.map (layLine level portWidth bindWidth))) :
    broken again = trimmed again.toList := by
  rw [broken]
  refine breakCommas_of_breakFree (breakFree_trimmed ?_)
  rw [out]
  refine breakFree_unlines fun m member => ?_
  obtain ⟨l, inside, rfl⟩ := mem_map.mp member
  refine breakFree_layLine (breakFree_of_mem_unlines ?_ l inside) (first.plain l inside).single
  rw [first.lines, broken]
  exact breakFree_append (breakFree_breakCommas false _) (breakFree_of_not_mem (by decide)) fun _ => rfl

theorem plainBlanks_unlines (plain : ∀ l ∈ ls, PlainLine l) : PlainBlanks (Text.unlines ls) := by
  intro c member blank
  obtain ⟨l, inside, there⟩ := mem_flatMap.mp member
  rcases mem_append.mp there with kept | feed
  · rcases (by simpa [isSpace] using plain l inside c kept blank : c = ' ' ∨ c = '\t') with rfl | rfl <;> simp
  · exact Or.inr (Or.inr (mem_singleton.mp feed))

theorem alignBinding_again {again : String} (first : Prepared text ls) (firm : ∀ l ∈ ls, Firm l)
    (out : again.toList = Text.unlines (ls.map (layLine level (bindingWidth (broken text) "port")
      (bindingWidth (broken text) "bind")))) : alignBinding again level = again := by
  obtain ⟨some, ls', lines, settled⟩ := exists_settled level (bindingWidth (broken text) "port")
    (bindingWidth (broken text) "bind") (fun l member => (first.plain l member).single) first.nonempty first.first
    first.last
  rw [← out] at some lines
  rw [← broken_again first out] at lines
  have kept := forall₂_kept settled first.plain firm
  have firm' := plain_closed_of_kept kept
  have plain : PlainBlanks again.toList := by
    rw [out]
    refine plainBlanks_unlines fun m member => ?_
    obtain ⟨l, inside, rfl⟩ := mem_map.mp member
    exact plain_layLine (first.plain l inside)
  have second := prepared_lines plain some
  have same : linesFrom [] (broken again) = ls' :=
    eq_of_unlines_eq (fun l member => (second.plain l member).single) (fun l member => (firm' l member).1.single)
      (by rw [second.lines, lines])
  obtain ⟨port, bind⟩ := bindingWidth_congr (kept.imp fun _ _ facts => facts.alike) first.lines lines
    (fun l member => (first.plain l member).single) (fun l member => (firm' l member).1.single)
    (fun l member => (firm l member).1) fun l member => (firm' l member).2
  refine String.toList_injective ?_
  rw [alignBinding_toList again, same, port, bind, map_layLine_of_kept kept, out]

/-- A map that has been laid out stays as it is. -/
theorem align_settled (text : String) (level : Int) (plain : PlainBlanks text.toList)
    (closed : ∀ line ∈ lines text, opensGroup line.toList = false)
    (tight : ∀ line ∈ lines text, looseComma line.toList = false) :
    alignBinding (alignBinding text level) level = alignBinding text level := by
  by_cases blank : trimmed text.toList = []
  · rw [alignBinding_of_blank blank, alignBinding_of_blank rfl]
  · refine alignBinding_again (prepared_lines plain blank) (firm_broken plain fun l member => ?_)
      (alignBinding_toList text level)
    have line : String.ofList l ∈ lines text := mem_map.mpr ⟨l, member, rfl⟩
    have whole : (String.ofList l).toList = l := String.toList_ofList
    exact ⟨whole ▸ closed _ line, whole ▸ tight _ line⟩

theorem align_settled_split_binding :
    PlainBlanks "clk\n=> sys_clk,\ndata =>d ( 3 ) , -- bus\n\n q=>o, z => open".toList ∧
      (∀ line ∈ lines "clk\n=> sys_clk,\ndata =>d ( 3 ) , -- bus\n\n q=>o, z => open",
        opensGroup line.toList = false) ∧
      (∀ line ∈ lines "clk\n=> sys_clk,\ndata =>d ( 3 ) , -- bus\n\n q=>o, z => open",
        looseComma line.toList = false) ∧
      alignBinding (alignBinding "clk\n=> sys_clk,\ndata =>d ( 3 ) , -- bus\n\n q=>o, z => open" 1) 1 =
        alignBinding "clk\n=> sys_clk,\ndata =>d ( 3 ) , -- bus\n\n q=>o, z => open" 1 := by
  have plain : PlainBlanks "clk\n=> sys_clk,\ndata =>d ( 3 ) , -- bus\n\n q=>o, z => open".toList := by decide
  have closed : ∀ line ∈ lines "clk\n=> sys_clk,\ndata =>d ( 3 ) , -- bus\n\n q=>o, z => open",
      opensGroup line.toList = false := by decide
  have tight : ∀ line ∈ lines "clk\n=> sys_clk,\ndata =>d ( 3 ) , -- bus\n\n q=>o, z => open",
      looseComma line.toList = false := by decide
  exact ⟨plain, closed, tight, align_settled _ 1 plain closed tight⟩

/-- Behind an arrow that opens its line a comma with blanks behind it is taken for a part of the value, which makes the
column wider, and without the blanks it is not. -/
theorem align_loose_comma :
    PlainBlanks "a\n=>bb , \nc => d".toList ∧
      (∀ line ∈ lines "a\n=>bb , \nc => d", opensGroup line.toList = false) ∧
      alignBinding (alignBinding "a\n=>bb , \nc => d" 0) 0 ≠ alignBinding "a\n=>bb , \nc => d" 0 := by
  decide +kernel

end VhdlWorkbench.Layout

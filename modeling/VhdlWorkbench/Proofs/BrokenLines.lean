import VhdlWorkbench.Proofs.BindingText

/-!
Lines broken behind their commas: what stays known of the lines of a text.
-/

namespace VhdlWorkbench.Layout

open List Bool

variable {line' : List Char}

variable {c : Char} {cs x y : List Char}

/-- No word follows a comma on its line. -/
def BreakFree : List Char → Prop
  | [] => True
  | c :: cs => (c = ',' → opensWord cs = false) ∧ BreakFree cs

theorem opensWord_space (space : isSpace c = true) (cs : List Char) : opensWord (c :: cs) = opensWord cs := by
  rw [opensWord, dropWhile_cons_of_pos space, opensWord]

theorem opensWord_solid (solid : isSpace c = false) (cs : List Char) : opensWord (c :: cs) = Text.isWord c := by
  rw [opensWord, dropWhile_cons_of_neg (by simp [solid])]
  rfl

theorem opensWord_append (first : opensWord x = false) (second : opensWord y = false) : opensWord (x ++ y) = false := by
  induction x with
  | nil => exact second
  | cons c x ih =>
    rw [cons_append]
    cases space : isSpace c with
    | true =>
      rw [opensWord_space space] at first ⊢
      exact ih first
    | false =>
      rw [opensWord_solid space] at first ⊢
      exact first

theorem opensWord_of_append (opens : opensWord (x ++ y) = false) : opensWord x = false := by
  induction x with
  | nil => rfl
  | cons c x ih =>
    rw [cons_append] at opens
    cases space : isSpace c with
    | true =>
      rw [opensWord_space space] at opens ⊢
      exact ih opens
    | false =>
      rw [opensWord_solid space] at opens ⊢
      exact opens

theorem breakFree_append (first : BreakFree x) (second : BreakFree y) (goes : ',' ∈ x → opensWord y = false) :
    BreakFree (x ++ y) := by
  induction x with
  | nil => exact second
  | cons c x ih =>
    refine ⟨fun comma => opensWord_append (first.1 comma) (goes (comma ▸ mem_cons_self)),
      ih first.2 fun member => ?_⟩
    exact goes (mem_cons_of_mem c member)

theorem BreakFree.of_append (free : BreakFree (x ++ y)) : BreakFree x ∧ BreakFree y := by
  induction x with
  | nil => exact ⟨trivial, free⟩
  | cons c x ih =>
    obtain ⟨first, second⟩ := ih free.2
    exact ⟨⟨fun comma => opensWord_of_append (free.1 comma), first⟩, second⟩

theorem breakCommas_of_breakFree (free : BreakFree cs) : breakCommas false cs = cs := by
  induction cs with
  | nil => rfl
  | cons c cs ih =>
    have goes : ¬(c == ',' && opensWord cs) = true := by
      rw [Bool.and_eq_true, beq_iff_eq]
      rintro ⟨comma, opens⟩
      rw [free.1 comma] at opens
      exact Bool.noConfusion opens
    rw [breakCommas, if_neg (by simp), if_neg goes, ih free.2]

theorem opensWord_breakCommas (cs : List Char) : opensWord (breakCommas false cs) = opensWord cs := by
  induction cs with
  | nil => rfl
  | cons c cs ih =>
    rw [breakCommas, if_neg (by simp)]
    split
    · next breaks =>
      rw [and_eq_true, beq_iff_eq] at breaks
      rw [breaks.1, opensWord_solid (by decide), opensWord_solid (by decide)]
    · cases space : isSpace c with
      | true => rw [opensWord_space space, opensWord_space space, ih]
      | false => rw [opensWord_solid space, opensWord_solid space]

theorem breakFree_breakCommas (skip : Bool) (cs : List Char) : BreakFree (breakCommas skip cs) := by
  fun_induction breakCommas skip cs with
  | case1 => trivial
  | case2 skip c cs skipped ih => exact ih
  | case3 skip c cs kept breaks ih => exact ⟨fun _ => rfl, fun feed => absurd feed (by decide), ih⟩
  | case4 skip c cs kept goes ih =>
    refine ⟨fun comma => ?_, ih⟩
    rw [opensWord_breakCommas]
    simpa [comma] using goes

theorem breakFree_unlines {ls : List (List Char)} (free : ∀ l ∈ ls, BreakFree l) : BreakFree (Text.unlines ls) := by
  induction ls with
  | nil => trivial
  | cons l ls ih =>
    rw [forall_mem_cons] at free
    rw [Text.unlines_cons]
    exact breakFree_append free.1 ⟨fun feed => absurd feed (by decide), ih free.2⟩ fun _ => rfl

theorem mem_breakCommas {skip : Bool} (member : c ∈ breakCommas skip cs) : c ∈ cs ∨ c = '\n' := by
  fun_induction breakCommas skip cs with
  | case1 => exact Or.inl member
  | case2 skip d cs skipped ih => exact (ih member).imp_left (mem_cons_of_mem d)
  | case3 skip d cs kept breaks ih =>
    rw [and_eq_true, beq_iff_eq] at breaks
    rcases mem_cons.mp member with comma | later
    · exact Or.inl (by simp [comma, breaks.1])
    · rcases mem_cons.mp later with feed | later
      · exact Or.inr feed
      · exact (ih later).imp_left (mem_cons_of_mem d)
  | case4 skip d cs kept goes ih =>
    rcases mem_cons.mp member with rfl | later
    · exact Or.inl mem_cons_self
    · exact (ih later).imp_left (mem_cons_of_mem d)

theorem plainBlanks_breakCommas (plain : Text.PlainBlanks cs) (skip : Bool) :
    Text.PlainBlanks (breakCommas skip cs) := by
  intro c member blank
  rcases mem_breakCommas member with inside | feed
  · exact plain c inside blank
  · exact Or.inr (Or.inr feed)

theorem getLast?_breakCommas (last : cs.getLast? = some c) (solid : Text.isBlank c = false) (skip : Bool) :
    (breakCommas skip cs).getLast? = some c := by
  have later {d : Char} {cs : List Char} (last : (d :: cs).getLast? = some c) (more : cs ≠ [] ∨ Text.isBlank d = true) :
      cs.getLast? = some c := by
    cases cs with
    | nil =>
      obtain rfl : d = c := by simpa using last
      simp [solid] at more
    | cons e cs => simpa [getLast?_cons] using last
  fun_induction breakCommas skip cs with
  | case1 => exact last
  | case2 skip d cs skipped ih =>
    rw [and_eq_true] at skipped
    exact ih (later last (Or.inr (isBlank_of_isSpace skipped.2)))
  | case3 skip d cs kept breaks ih =>
    rw [and_eq_true] at breaks
    have more : cs ≠ [] := by
      rintro rfl
      exact absurd breaks.2 (by decide)
    rw [getLast?_cons, getLast?_cons, ih (later last (Or.inl more))]
    rfl
  | case4 skip d cs kept goes ih =>
    cases cs with
    | nil => exact last
    | cons e cs =>
      rw [getLast?_cons, ih (later last (Or.inl (cons_ne_nil e cs)))]
      rfl

section Carried

open Text List Bool

variable {P : List Char → Prop} {line lead trail : List Char}

theorem exists_first_line (plain : PlainBlanks cs) (begun : line ≠ []) :
    ∃ y, (∀ c ∈ y, c ∈ cs) ∧ line.reverse ++ y ∈ linesFrom line cs := by
  induction cs generalizing line with
  | nil => exact ⟨[], by simp, by simp [linesFrom, begun]⟩
  | cons c cs ih =>
    by_cases feed : c = '\n'
    · subst feed
      exact ⟨[], by simp, by rw [linesFrom_feed, append_nil]; exact mem_cons_self⟩
    · obtain ⟨y, inside, member⟩ := ih (plainBlanks_cons.mp plain).2 (cons_ne_nil c line)
      refine ⟨c :: y, fun d member => ?_, by rw [linesFrom_of_plain plain feed]; simpa using member⟩
      exact (mem_cons.mp member).elim (fun same => same ▸ mem_cons_self)
        fun later => mem_cons_of_mem c (inside d later)

section

variable (drop : ∀ lead l, (∀ c ∈ lead, isBlank c = true) → P (lead ++ l) → P l)
include drop

theorem carried_begun (plain : PlainBlanks cs) (blank : ∀ c ∈ lead, isBlank c = true)
    (known : ∀ l ∈ linesFrom (line ++ lead) cs, P l) : ∀ l ∈ linesFrom line cs, P l := by
  induction cs generalizing line with
  | nil =>
    intro l member
    cases line with
    | nil => simp [linesFrom] at member
    | cons c line =>
      rw [show l = (c :: line).reverse by simpa [linesFrom] using member]
      refine drop lead.reverse _ (by simpa using blank) (known _ ?_)
      simp [linesFrom]
  | cons c cs ih =>
    by_cases feed : c = '\n'
    · subst feed
      rw [linesFrom_feed, forall_mem_cons, reverse_append] at known
      rw [linesFrom_feed, forall_mem_cons]
      exact ⟨drop lead.reverse _ (by simpa using blank) known.1, known.2⟩
    · rw [linesFrom_of_plain plain feed] at known ⊢
      exact ih (plainBlanks_cons.mp plain).2 known

theorem carried_lead (plain : PlainBlanks (lead ++ cs)) (blank : ∀ c ∈ lead, isBlank c = true)
    (before : ∀ c ∈ line, isBlank c = true) (known : ∀ l ∈ linesFrom line (lead ++ cs), P l) :
    ∀ l ∈ linesFrom [] cs, P l := by
  induction lead generalizing line with
  | nil => exact carried_begun drop plain before known
  | cons c lead ih =>
    rw [cons_append] at plain known
    rw [forall_mem_cons] at blank
    by_cases feed : c = '\n'
    · subst feed
      rw [linesFrom_feed, forall_mem_cons] at known
      exact ih (plainBlanks_cons.mp plain).2 blank.2 (by simp) known.2
    · rw [linesFrom_of_plain plain feed] at known
      exact ih (plainBlanks_cons.mp plain).2 blank.2 (forall_mem_cons.mpr ⟨blank.1, before⟩) known

end

theorem carried_trail (drop : ∀ trail l, (∀ c ∈ trail, isBlank c = true) → P (l ++ trail) → P l)
    (plain : PlainBlanks (cs ++ trail)) (blank : ∀ c ∈ trail, isBlank c = true)
    (known : ∀ l ∈ linesFrom line (cs ++ trail), P l) : ∀ l ∈ linesFrom line cs, P l := by
  induction cs generalizing line with
  | nil =>
    intro l member
    cases line with
    | nil => simp [linesFrom] at member
    | cons c line =>
      rw [show l = (c :: line).reverse by simpa [linesFrom] using member]
      obtain ⟨y, inside, first⟩ := exists_first_line plain (cons_ne_nil c line)
      exact drop y _ (fun c member => blank c (inside c member)) (known _ first)
  | cons c cs ih =>
    rw [cons_append] at plain known
    by_cases feed : c = '\n'
    · subst feed
      rw [linesFrom_feed, forall_mem_cons] at known ⊢
      exact ⟨known.1, ih (plainBlanks_cons.mp plain).2 known.2⟩
    · have front : PlainBlanks (c :: cs) := fun d member => plain d (mem_append_left trail member)
      rw [linesFrom_of_plain plain feed] at known
      rw [linesFrom_of_plain front feed]
      exact ih (plainBlanks_cons.mp plain).2 known

/-- A line that has been begun is the line begun in the text before it was broken, or begins with a word. -/
def Continues (line line' : List Char) : Prop :=
  line' = line ∨ ∃ l c, line' = l ++ [c] ∧ isWord c = true

theorem Continues.cons (same : Continues line line') (c : Char) : Continues (c :: line) (c :: line') := by
  rcases same with rfl | ⟨l, d, rfl, wordy⟩
  · exact Or.inl rfl
  · exact Or.inr ⟨c :: l, d, rfl, wordy⟩

theorem Continues.known (same : Continues line line')
    (word : ∀ c l, isWord c = true → P (c :: l)) (before : P line.reverse) : P line'.reverse := by
  rcases same with rfl | ⟨l, d, rfl, wordy⟩
  · exact before
  · rw [reverse_append]
    exact word d _ wordy

/-- What is known of a line up to a comma, and of each line that begins with a word, is known of broken lines. A line
that is left out of the broken text up to a word goes on with this word. -/
theorem carried_break (word : ∀ c l, isWord c = true → P (c :: l))
    (cut : ∀ x y, P (x ++ ',' :: y) → P (x ++ [','])) {skip : Bool} (plain : PlainBlanks cs)
    (follows : skip = false ∧ Continues line line' ∨ skip = true ∧ line' = [] ∧ opensWord cs = true)
    (known : ∀ l ∈ linesFrom line cs, P l) : ∀ l ∈ linesFrom line' (breakCommas skip cs), P l := by
  induction cs generalizing line line' skip with
  | nil =>
    rcases follows with ⟨rfl, same⟩ | ⟨-, -, opens⟩
    · intro l member
      have nonempty : line' ≠ [] := by
        rintro rfl
        simp [breakCommas, linesFrom] at member
      rw [show l = line'.reverse by simpa [breakCommas, linesFrom, nonempty] using member]
      rcases same with rfl | ⟨x, c, rfl, wordy⟩
      · exact known _ (by simp [linesFrom, nonempty])
      · rw [reverse_append]
        exact word c _ wordy
    · exact absurd opens (by decide)
  | cons d cs ih =>
    have later := (plainBlanks_cons.mp plain).2
    have broken (skip : Bool) (d : Char) (kept : isBlank d = true → d = ' ' ∨ d = '\t' ∨ d = '\n') :
        PlainBlanks (d :: breakCommas skip cs) := plainBlanks_cons.mpr ⟨kept, plainBlanks_breakCommas later skip⟩
    rcases follows with ⟨rfl, same⟩ | ⟨rfl, rfl, opens⟩
    · rw [breakCommas, if_neg (by simp)]
      split
      · next breaks =>
        rw [and_eq_true, beq_iff_eq] at breaks
        obtain ⟨rfl, opens⟩ := breaks
        rw [linesFrom_of_plain plain (by decide)] at known
        obtain ⟨y, -, first⟩ := exists_first_line later (cons_ne_nil ',' line)
        have ended : P (',' :: line).reverse := by
          have goes := known _ first
          rw [reverse_cons, append_assoc] at goes
          rw [reverse_cons]
          exact cut _ y goes
        rw [linesFrom_of_plain (plainBlanks_cons.mpr ⟨by decide, broken true '\n' (by simp)⟩) (by decide),
          linesFrom_feed,
          forall_mem_cons]
        exact ⟨(same.cons ',').known word ended, ih later (Or.inr ⟨rfl, rfl, opens⟩) known⟩
      · by_cases feed : d = '\n'
        · subst feed
          rw [linesFrom_feed, forall_mem_cons] at known ⊢
          exact ⟨same.known word known.1, ih later (Or.inl ⟨rfl, Or.inl rfl⟩) known.2⟩
        · rw [linesFrom_of_plain plain feed] at known
          rw [linesFrom_of_plain (broken false d (plainBlanks_cons.mp plain).1) feed]
          exact ih later (Or.inl ⟨rfl, same.cons d⟩) known
    · have feed : d ≠ '\n' := by
        rintro rfl
        rw [opensWord_solid (by decide)] at opens
        exact absurd opens (by decide)
      rw [linesFrom_of_plain plain feed] at known
      cases space : isSpace d with
      | true =>
        rw [opensWord_space space] at opens
        rw [breakCommas, if_pos (by simp [space])]
        exact ih later (Or.inr ⟨rfl, rfl, opens⟩) known
      | false =>
        rw [opensWord_solid space] at opens
        have other : d ≠ ',' := by
          rintro rfl
          exact absurd opens (by decide)
        rw [breakCommas, if_neg (by simp [space]), if_neg (by simp [other]),
          linesFrom_of_plain (broken false d (plainBlanks_cons.mp plain).1) feed]
        exact ih later (Or.inl ⟨rfl, Or.inr ⟨[], d, rfl, opens⟩⟩) known

/-- What is known of the lines of a text is known of the lines of the map that is laid out, if it does not depend on the
blanks around a line, is known of a line up to a comma with the whole line, and of each line that begins with a word. -/
theorem known_broken {text : String} (dropLeft : ∀ lead l, (∀ c ∈ lead, isBlank c = true) → P (lead ++ l) → P l)
    (dropRight : ∀ trail l, (∀ c ∈ trail, isBlank c = true) → P (l ++ trail) → P l)
    (word : ∀ c l, isWord c = true → P (c :: l)) (cut : ∀ x y, P (x ++ ',' :: y) → P (x ++ [',']))
    (plain : PlainBlanks text.toList) (known : ∀ l ∈ linesFrom [] text.toList, P l) :
    ∀ l ∈ linesFrom [] (broken text), P l := by
  obtain ⟨lead, trail, whole, before, behind⟩ := exists_trimmed text.toList
  rw [whole] at plain known
  have right : PlainBlanks (trimmed text.toList ++ trail) := fun c member => plain c (mem_append_right lead member)
  have left : PlainBlanks (trimmed text.toList) := fun c member => right c (mem_append_left trail member)
  exact carried_break word cut left (Or.inl ⟨rfl, Or.inl rfl⟩)
    (carried_trail dropRight right behind (carried_lead dropLeft plain before (by simp) known))

end Carried

end VhdlWorkbench.Layout

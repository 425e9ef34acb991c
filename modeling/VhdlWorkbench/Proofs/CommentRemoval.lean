import VhdlWorkbench.Proofs.Marks

/-!
Sources without their comments stay as they are when their comments are taken out again.
-/

namespace VhdlWorkbench.Source

open Text List Option

section Finding

variable {σ : Type} (step : σ → Char → Option σ)

/-- A scanner comes upon what it looks for: a step gives no further state. -/
def finds : σ → List Char → Bool
  | _, [] => false
  | s, c :: cs => match step s c with
    | none => true
    | some next => finds next cs

/-- The characters behind what a scanner looks for. -/
def behind? : σ → List Char → Option (List Char)
  | _, [] => none
  | s, c :: cs => match step s c with
    | none => some cs
    | some next => behind? next cs

variable {step} {s : σ}

theorem isSome_behind? (cs : List Char) : (behind? step s cs).isSome = finds step s cs := by
  induction cs generalizing s with
  | nil => rfl
  | cons c cs ih =>
    rw [behind?, finds]
    split
    · rfl
    · exact ih

theorem finds_append_left (xs : List Char) {ys : List Char} (later : ∀ s, finds step s ys = true) :
    finds step s (xs ++ ys) = true := by
  induction xs generalizing s with
  | nil => exact later s
  | cons x xs ih =>
    rw [cons_append, finds]
    split
    · rfl
    · exact ih

theorem finds_append_mono (xs : List Char) {ys zs : List Char}
    (more : ∀ s, finds step s ys = true → finds step s zs = true) (found : finds step s (xs ++ ys) = true) : finds step s (xs ++ zs) = true := by
  induction xs generalizing s with
  | nil => exact more s found
  | cons x xs ih =>
    rw [cons_append, finds] at found ⊢
    split at found
    · rfl
    · exact ih found

theorem exists_end_of_block? {cs body after : List Char} (found : block? cs = some (body, after)) :
    ∃ inner, cs = inner ++ '*' :: '/' :: after := by
  fun_induction block? cs generalizing body with
  | case1 => simp at found
  | case2 rest =>
    simp only [some.injEq, Prod.mk.injEq] at found
    exact ⟨[], by rw [found.2]; rfl⟩
  | case3 c rest other ih =>
    obtain ⟨⟨more, behind⟩, there, same⟩ := map_eq_some_iff.mp found
    simp only [Prod.mk.injEq] at same
    obtain ⟨inner, rfl⟩ := ih (same.2 ▸ there)
    exact ⟨c :: inner, rfl⟩

/-- What is not in a source is not in the source without comments, if the scanner is in one and the same state behind a
blank, a dash, a line feed and the end of a block. -/
theorem finds_blankComments (rest : σ) (quiet : ∀ s, ∀ c ∈ [' ', '-', '\n'], step s c = some rest)
    (blockEnd : ∀ s after, finds step rest after = true → finds step s ('*' :: '/' :: after) = true) {cs : List Char}
    (found : finds step s (blankComments cs) = true) : finds step s cs = true := by
  have passes (s : σ) {c : Char} (listed : c ∈ [' ', '-', '\n']) (cs : List Char) :
      finds step s (c :: cs) = finds step rest cs := by
    rw [finds, quiet s c listed]
  fun_induction blankComments cs generalizing s with
  | case1 => exact found
  | case2 tail ih =>
    rw [passes s (by decide)] at found
    have behind := ih found
    rw [passes s (by decide), passes _ (by decide), ← takeWhile_append_dropWhile (p := (· != '\n')) (l := tail)]
    cases line : tail.dropWhile (· != '\n') with
    | nil =>
      rw [line] at behind
      exact absurd behind (by simp [finds])
    | cons c more =>
      obtain rfl : c = '\n' := by simpa [line] using head?_dropWhile_not (· != '\n') tail
      rw [line, passes _ (by decide)] at behind
      exact finds_append_left _ fun s => by rw [passes s (by decide), behind]
  | case3 tail body after closed ih =>
    rw [passes s (by decide)] at found
    obtain ⟨inner, rfl⟩ := exists_end_of_block? closed
    exact finds_append_left ('/' :: '*' :: inner) fun s => blockEnd s after (ih found)
  | case4 tail unclosed ih => exact finds_append_mono ['/'] (fun _ => ih) found
  | case5 tail body after closed ih =>
    rw [literal?_append closed]
    exact finds_append_mono ('"' :: body) (fun _ => ih) found
  | case6 tail unclosed ih => exact finds_append_mono ['"'] (fun _ => ih) found
  | case7 c tail dash slash quote ih => exact finds_append_mono [c] (fun _ => ih) found

end Finding

/-- Looks for the end of a literal; the state tells whether the next character is behind a backslash. -/
def quoteStep (quote : Char) (escaped : Bool) (c : Char) : Option Bool :=
  if escaped then some false else if c = quote then none else some (c == '\\')

/-- Looks for the end of a block comment; the state tells whether the last character was a star. -/
def blockStep (star : Bool) (c : Char) : Option Bool :=
  if star && c == '/' then none else some (c == '*')

theorem behind?_quoteStep {quote : Char} (solid : quote ≠ '\\') (cs : List Char) :
    behind? (quoteStep quote) false cs = (literal? quote cs).map Prod.snd := by
  fun_induction literal? quote cs with
  | case1 => rfl
  | case2 c rest ih => simpa [behind?, quoteStep, solid.symm, Function.comp_def] using ih
  | case3 c rest single quote => simp [behind?, quoteStep, beq_iff_eq.mp quote]
  | case4 c rest single plain back =>
    obtain rfl := beq_iff_eq.mp back
    cases rest with
    | nil => simp [behind?, quoteStep, solid.symm]
    | cons d rest => exact (single d rest rfl rfl).elim
  | case5 c rest single plain other ih =>
    simp only [beq_iff_eq] at plain other
    simpa [behind?, quoteStep, plain, beq_false_of_ne other, Function.comp_def] using ih

theorem isSome_literal? (cs : List Char) : (literal? '"' cs).isSome = finds (quoteStep '"') false cs := by
  rw [← isSome_behind?, behind?_quoteStep (by decide), isSome_map]

theorem isSome_block? (cs : List Char) (star : Bool) (open_ : star = true → cs.head? ≠ some '/') :
    (block? cs).isSome = finds blockStep star cs := by
  fun_induction block? cs generalizing star with
  | case1 => rfl
  | case2 rest => simp [finds, blockStep]
  | case3 c rest other ih =>
    have here : blockStep star c = some (c == '*') := by
      rw [blockStep, if_neg]
      rw [Bool.and_eq_true, beq_iff_eq]
      rintro ⟨set, rfl⟩
      exact open_ set rfl
    rw [isSome_map, finds, here]
    refine ih (c == '*') fun set head => ?_
    obtain ⟨more, rfl⟩ := head?_eq_some_iff.mp head
    exact other more (beq_iff_eq.mp set) rfl

theorem literal?_blankComments {cs : List Char} (unclosed : literal? '"' cs = none) :
    literal? '"' (blankComments cs) = none := by
  have none : finds (quoteStep '"') false cs = false := by rw [← isSome_literal?, unclosed, isSome_none]
  rw [← not_isSome_iff_eq_none, isSome_literal?]
  intro found
  refine Bool.false_ne_true (none.symm.trans (finds_blankComments false ?_ ?_ found))
  · decide
  · rintro (_ | _) after found <;> simpa [finds, quoteStep] using found

theorem block?_blankComments {cs : List Char} (unclosed : block? cs = none) : block? (blankComments cs) = none := by
  have none : finds blockStep false cs = false := by rw [← isSome_block? cs false (by simp), unclosed, isSome_none]
  rw [← not_isSome_iff_eq_none, isSome_block? _ false (by simp)]
  intro found
  refine Bool.false_ne_true (none.symm.trans (finds_blankComments false ?_ ?_ found))
  · decide
  · rintro (_ | _) after found <;> simp [finds, blockStep]

theorem blankComments_literal {rest body after : List Char} (closed : literal? '"' rest = some (body, after)) :
    blankComments ('"' :: rest) = '"' :: (body ++ blankComments after) := by
  rw [blankComments]
  split <;> simp_all

theorem blankComments_unclosed_literal {rest : List Char} (unclosed : literal? '"' rest = none) :
    blankComments ('"' :: rest) = '"' :: blankComments rest := by
  rw [blankComments]
  split <;> simp_all

theorem blankComments_unclosed_block {rest : List Char} (unclosed : block? rest = none) :
    blankComments ('/' :: '*' :: rest) = '/' :: blankComments ('*' :: rest) := by
  rw [blankComments]
  split <;> simp_all

theorem literal?_behind_body {quote : Char} (solid : quote ≠ '\\') {cs body after : List Char}
    (closed : literal? quote cs = some (body, after)) (rest : List Char) : literal? quote (body ++ rest) = some (body, rest) := by
  fun_induction literal? quote cs generalizing body with
  | case1 => simp at closed
  | case2 c tail ih =>
    obtain ⟨⟨inner, _⟩, there, same⟩ := map_eq_some_iff.mp closed
    obtain ⟨rfl, rfl⟩ := Prod.mk.inj same
    simp [literal?, ih there]
  | case3 c tail single quote =>
    obtain ⟨rfl, rfl⟩ := Prod.mk.inj (some.inj closed)
    simp [literal?, beq_iff_eq.mp quote, solid]
  | case4 => simp at closed
  | case5 c tail single plain other ih =>
    obtain ⟨⟨inner, _⟩, there, same⟩ := map_eq_some_iff.mp closed
    obtain ⟨rfl, rfl⟩ := Prod.mk.inj same
    simp only [beq_iff_eq] at plain other
    rw [cons_append, literal?, if_neg (by simpa using plain), if_neg (by simpa using other), ih there]
    · rfl
    · exact fun _ _ back => (other back).elim

/-- The first character of a source without comments is that of the source, or the space for a comment. -/
theorem head?_blankComments (cs : List Char) :
    (blankComments cs).head? = cs.head? ∨ (blankComments cs).head? = some ' ' := by
  fun_cases blankComments cs <;> simp

/-- A source without comments stays as it is when its comments are taken out again. -/
theorem withoutComments_idempotent (source : String) :
    withoutComments (withoutComments source) = withoutComments source := by
  simp only [withoutComments, String.toList_ofList, String.ofList_inj]
  fun_induction blankComments source.toList with
  | case1 => rw [blankComments]
  | case2 rest ih => rw [blankComments_cons (by simp) (by simp) (by simp), ih]
  | case3 rest body after closed ih => rw [blankComments_cons (by simp) (by simp) (by simp), ih]
  | case4 rest unclosed ih =>
    have star : blankComments ('*' :: rest) = '*' :: blankComments rest := blankComments_cons (by simp) (by simp) (by simp)
    rw [star] at ih ⊢
    rw [blankComments_unclosed_block (block?_blankComments unclosed), ih]
  | case5 rest body after closed ih =>
    rw [cons_append, blankComments_literal (literal?_behind_body (by decide) closed _), ih]
  | case6 rest unclosed ih => rw [blankComments_unclosed_literal (literal?_blankComments unclosed), ih]
  | case7 c rest dash slash quote ih =>
    have behind {d : Char} (head : (blankComments rest).head? = some d) (solid : d ≠ ' ') : ∃ more, rest = d :: more := by
      rcases head?_blankComments rest with same | space
      · exact head?_eq_some_iff.mp (same.symm.trans head)
      · exact absurd (some.inj (head.symm.trans space)) solid
    rw [blankComments_cons, ih]
    · rintro rfl head
      obtain ⟨more, same⟩ := behind head (by decide)
      exact dash more rfl same
    · rintro rfl head
      obtain ⟨more, same⟩ := behind head (by decide)
      exact slash more rfl same
    · exact quote

/-- The number of backslashes at the end of a text. -/
def backslashes (cs : List Char) : Nat :=
  (cs.reverse.takeWhile (· == '\\')).length

theorem backslashes_cons (c : Char) (cs : List Char) : backslashes (c :: cs) =
    if c = '\\' ∧ backslashes cs = cs.length then cs.length + 1 else backslashes cs := by
  simp only [backslashes, reverse_cons, takeWhile_append, length_reverse, takeWhile_cons, beq_iff_eq]
  by_cases back : c = '\\' <;> split <;> simp_all

theorem backslashes_pair (c : Char) (cs : List Char) : backslashes ('\\' :: c :: cs) % 2 = backslashes cs % 2 := by
  have few : backslashes cs ≤ cs.length := by
    simpa [backslashes] using ( takeWhile_prefix (· == '\\') (l := cs.reverse)).length_le
  rw [backslashes_cons, backslashes_cons, length_cons]
  by_cases all : c = '\\' ∧ backslashes cs = cs.length
  · rw [if_pos all, if_pos ⟨rfl, rfl⟩]
    omega
  · rw [if_neg all, if_neg (by omega)]

/-- A literal ends at the quote behind its body if the body ends in an even number of backslashes; otherwise that quote
belongs to the body. -/
theorem literal?_body {body : List Char} (free : '"' ∉ body) (rest : List Char) :
    literal? '"' (body ++ '"' :: rest) =
      if backslashes body % 2 = 0 then some (body ++ ['"'], rest)
      else (literal? '"' rest).map fun (more, after) => (body ++ '"' :: more, after) := by
  fun_induction literal? '"' body with
  | case1 => simp [literal?, backslashes]
  | case2 c tail ih =>
    have inner : '"' ∉ tail := fun member => free (by simp [member])
    simp only [cons_append, literal?, ih inner, backslashes_pair]
    split <;> simp [Function.comp_def]
  | case3 c tail single quote => exact absurd (by simp [beq_iff_eq.mp quote]) free
  | case4 c tail single plain back =>
    obtain rfl := beq_iff_eq.mp back
    cases tail with
    | nil => simp [literal?, backslashes]
    | cons d tail => exact (single d tail rfl rfl).elim
  | case5 c tail single plain other ih =>
    have inner : '"' ∉ tail := fun member => free (by simp [member])
    have same : backslashes (c :: tail) = backslashes tail := by
      rw [backslashes_cons, if_neg fun both => other (beq_iff_eq.mpr both.1)]
    rw [same, cons_append, literal?, if_neg plain, if_neg other, ih inner]
    · split <;> simp [Function.comp_def]
    · exact fun _ _ back => (other (beq_iff_eq.mpr back)).elim

/-- Behind a literal and a semicolon every comment gives way to a space exactly if the text between the quotes ends in an
even number of backslashes. -/
theorem comment_behind_literal_iff (body : String) (free : '"' ∉ body.toList) :
    (∀ comment rest : String, '\n' ∉ comment.toList →
      withoutComments ("\"" ++ body ++ "\";--" ++ comment ++ "\n" ++ rest) =
        "\"" ++ body ++ "\"; \n" ++ withoutComments rest) ↔ backslashes body.toList % 2 = 0 := by
  have source (comment rest : String) : ("\"" ++ body ++ "\";--" ++ comment ++ "\n" ++ rest).toList =
      '"' :: (body.toList ++ '"' :: ';' :: '-' :: '-' :: (comment.toList ++ '\n' :: rest.toList)) := by
    simp
  constructor
  · refine fun all => Decidable.byContradiction fun odd => ?_
    -- A quote in the comment ends the literal.
    have closed : literal? '"' (body.toList ++ '"' :: [';', '-', '-', '"', '\n']) =
        some (body.toList ++ ['"', ';', '-', '-', '"'], ['\n']) := by
      rw [literal?_body free, if_neg odd]
      rfl
    have kept := congrArg String.toList (all "\"" "" (by decide))
    rw [withoutComments, source, show "\"".toList ++ '\n' :: "".toList = ['"', '\n'] from rfl, blankComments_literal closed] at kept
    simp [withoutComments, blankComments] at kept
  · intro even comment rest single
    have closed := literal?_body free (';' :: '-' :: '-' :: (comment.toList ++ '\n' :: rest.toList))
    rw [if_pos even] at closed
    have inline : ∀ c ∈ comment.toList, (c != '\n') = true := fun c member => bne_iff_ne.mpr fun feed => single (feed ▸ member)
    have line : (comment.toList ++ '\n' :: rest.toList).dropWhile (· != '\n') = '\n' :: rest.toList := by
      rw [dropWhile_append_of_pos inline, dropWhile_cons_of_neg (by decide)]
    rw [withoutComments, source, blankComments_literal closed, blankComments_cons (by simp) (by simp) (by simp),
      blankComments, line, blankComments_cons (by simp) (by simp) (by simp), withoutComments, ← String.toList_inj]
    simp

/-- A body with a backslash inside. -/
theorem comment_behind_literal_iff_path : '"' ∉ "C:\\dir".toList ∧
    withoutComments ("\"" ++ "C:\\dir" ++ "\";--" ++ " a \"b" ++ "\n" ++ "") =
      "\"" ++ "C:\\dir" ++ "\"; \n" ++ withoutComments "" :=
  ⟨by decide, (comment_behind_literal_iff "C:\\dir" (by decide)).mpr (by decide) " a \"b" "" (by decide)⟩

/-- A backslash before the closing quote makes the literal go on into the comment. -/
theorem comment_kept_behind_backslash : withoutComments "\"C:\\dir\\\";-- a \"b\n" = "\"C:\\dir\\\";-- a \"b\n" ∧
    withoutComments "\"C:\\dir\\\";-- a \"b\n" ≠ "\"C:\\dir\\\"; \n" := by
  decide +kernel

end VhdlWorkbench.Source

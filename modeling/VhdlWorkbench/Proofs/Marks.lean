import VhdlWorkbench.Proofs.TrimmedLines

/-!
What layout changes of a source. A text is read as its marks, the characters that are no blanks, and comments are
recognised by the marks alone.
-/

namespace VhdlWorkbench.Source

open Text Option
open Prod (mk fst)
open List (length_cons mem_cons not_mem_nil map_cons cons_ne_nil cons cons_append mem_cons_self append_assoc singleton_append append_nil)

variable {after : List Mark} {n : Mark} {rest body : List Char}

/-- Side by side the two characters belong together: in a word, in a mark of a comment, or behind a backslash. -/
def joins (a b : Char) : Bool :=
  isWord a && isWord b || a == '-' && b == '-' || a == '/' && b == '*' || a == '*' && b == '/' ||
    a == '\\' && (b == '"' || b == '\\')

def standsAlone (c : Char) : Bool :=
  !isWord c && !"-*/\\\"".toList.contains c

/-- A character that is no blank. -/
structure Mark where
  char : Char
  /-- It stands right behind a character that it belongs to. -/
  joined : Bool
  /-- It is the first one of its line. -/
  opens : Bool
deriving DecidableEq, Repr

def Mark.shape (m : Mark) : Char × Bool :=
  (m.char, m.joined)

/-- Tells of a character, the blanks behind it and the character behind them whether that one begins a line. -/
abbrev Breaks := Char → List Char → Char → Bool

def feeds : Breaks := fun _ gap _ => gap.contains '\n'

/-- The marks of a text behind a character and blanks; the blanks are given from the last one to the first one. -/
def marksFrom (breaks : Breaks) (last : Char) (gap : List Char) : List Char → List Mark
  | [] => []
  | c :: cs =>
    if isBlank c then marksFrom breaks last (c :: gap) cs
    else ⟨c, gap.isEmpty && joins last c, breaks last gap c⟩ :: marksFrom breaks c [] cs

def marks (breaks : Breaks) (cs : List Char) : List Mark :=
  marksFrom breaks '\n' ['\n'] cs

/-- The next mark is this one, and it is joined. -/
def joinedBy (c : Char) : List Mark → Bool
  | [] => false
  | m :: _ => m.joined && m.char == c

/-- The marks behind a block comment. -/
def blockEnd? : List Mark → Option (List Mark)
  | [] => none
  | m :: ms => if m.char == '*' && joinedBy '/' ms then some ms.tail else blockEnd? ms

/-- The marks of a literal behind its first quote, and those behind the literal. -/
def literalEnd? : List Mark → Option (List Mark × List Mark)
  | [] => none
  | [m] => if m.char == '"' then some ([m], []) else none
  | m :: n :: rest =>
    if m.char == '"' then some ([m], n :: rest)
    else if m.char == '\\' && n.joined then (literalEnd? rest).map fun (body, after) => (m :: n :: body, after)
    else (literalEnd? (n :: rest)).map fun (body, after) => (m :: body, after)

/-- The rest of a line is left out. -/
def nextLine (ms : List Mark) : List Mark :=
  ms.dropWhile (!·.opens)

/-- The first mark is not joined to what was before it. -/
def loosen : List Mark → List Mark
  | [] => []
  | m :: ms => { m with joined := false } :: ms

variable {b : Breaks} {last c d : Char} {gap cs : List Char} {m : Mark} {ms : List Mark}

theorem length_tail_lt_of_joinedBy (joined : joinedBy c ms = true) : ms.tail.length < ms.length := by
  cases ms with
  | nil => simp [joinedBy] at joined
  | cons m ms => simp

theorem length_blockEnd? (found : blockEnd? ms = some after) : after.length < ms.length := by
  induction ms with
  | nil => simp [blockEnd?] at found
  | cons m ms ih =>
    rw [blockEnd?] at found
    split at found
    · obtain rfl := some.inj found
      exact Nat.lt_succ_of_le (by simp)
    · exact Nat.lt_succ_of_lt (ih found)

theorem length_literalEnd? {body : List Mark} (found : literalEnd? ms = some (body, after)) :
    after.length < ms.length := by
  fun_induction literalEnd? ms generalizing body with
  | case1 => simp at found
  | case2 m quote =>
    simp only [some.injEq, Prod.mk.injEq] at found
    simp [← found.2]
  | case3 m plain => simp at found
  | case4 m n rest quote =>
    simp only [some.injEq, Prod.mk.injEq] at found
    simp [← found.2]
  | case5 m n rest plain escaped ih =>
    obtain ⟨⟨inner, rest'⟩, there, same⟩ := map_eq_some_iff.mp found
    simp only [Prod.mk.injEq] at same
    exact Nat.lt_of_lt_of_le (ih (same.2 ▸ there)) (by simp only [length_cons]; omega)
  | case6 m n rest plain other ih =>
    obtain ⟨⟨inner, rest'⟩, there, same⟩ := map_eq_some_iff.mp found
    simp only [Prod.mk.injEq] at same
    exact Nat.lt_succ_of_lt (ih (same.2 ▸ there))

theorem length_loosen (ms : List Mark) : (loosen ms).length = ms.length := by
  cases ms <;> rfl

theorem length_nextLine_le (ms : List Mark) : (nextLine ms).length ≤ ms.length :=
  (List.dropWhile_suffix _).length_le

/-- The marks without comments. -/
def codeOf : List Mark → List (Char × Bool)
  | [] => []
  | m :: ms =>
    if _h : m.char = '-' ∧ joinedBy '-' ms = true then codeOf (nextLine ms.tail)
    else if _h : m.char = '/' ∧ joinedBy '*' ms = true then
      match _h' : blockEnd? ms.tail with
      | some after => codeOf (loosen after)
      | none => m.shape :: codeOf ms
    else if m.char = '"' then
      match _h' : literalEnd? ms with
      | some (body, after) => m.shape :: (body.map Mark.shape ++ codeOf after)
      | none => m.shape :: codeOf ms
    else m.shape :: codeOf ms
termination_by ms => ms.length
decreasing_by
  all_goals simp only [length_cons]
  · have := length_tail_lt_of_joinedBy _h.2
    have := length_nextLine_le ms.tail
    omega
  · have := length_tail_lt_of_joinedBy _h.2
    have := length_blockEnd? _h'
    rw [length_loosen]
    omega
  · omega
  · have := length_literalEnd? _h'
    omega
  · omega
  · omega

theorem not_joins_left (alone : standsAlone c = true) (d : Char) : joins c d = false := by
  simp only [standsAlone, Bool.and_eq_true, Bool.not_eq_true', List.contains_eq_mem, decide_eq_false_iff_not] at alone
  have marks := alone.2
  simp only [String.reduceToList, mem_cons, not_mem_nil, or_false, not_or] at marks
  simp [joins, alone.1, marks]

theorem not_joins_right (alone : standsAlone d = true) (c : Char) : joins c d = false := by
  simp only [standsAlone, Bool.and_eq_true, Bool.not_eq_true', List.contains_eq_mem, decide_eq_false_iff_not] at alone
  have marks := alone.2
  simp only [String.reduceToList, mem_cons, not_mem_nil, or_false, not_or] at marks
  simp [joins, alone.1, marks]

@[simp] theorem marksFrom_nil : marksFrom b last gap [] = [] := rfl

theorem marksFrom_blank (blank : isBlank c = true) (cs : List Char) :
    marksFrom b last gap (c :: cs) = marksFrom b last (c :: gap) cs := by
  rw [marksFrom, if_pos blank]

theorem marksFrom_solid (solid : isBlank c = false) (cs : List Char) :
    marksFrom b last gap (c :: cs) =
      ⟨c, gap.isEmpty && joins last c, b last gap c⟩ :: marksFrom b c [] cs := by
  rw [marksFrom, if_neg (by simp [solid])]

theorem marksFrom_pair (first : isBlank c = false) (second : isBlank d = false) (cs : List Char) :
    marksFrom b last gap (c :: d :: cs) =
      ⟨c, gap.isEmpty && joins last c, b last gap c⟩ :: ⟨d, joins c d, b c [] d⟩ :: marksFrom b d [] cs := by
  rw [marksFrom_solid first, marksFrom_solid second]
  rfl

theorem shapes_marksFrom (b b' : Breaks) (last : Char) (gap cs : List Char) :
    (marksFrom b last gap cs).map Mark.shape = (marksFrom b' last gap cs).map Mark.shape := by
  induction cs generalizing last gap with
  | nil => rfl
  | cons c cs ih =>
    rw [marksFrom, marksFrom]
    split
    · exact ih last (c :: gap)
    · rw [map_cons, map_cons, ih c []]
      rfl

theorem joinedBy_of_gap (some : gap ≠ []) (cs : List Char) : joinedBy d (marksFrom b last gap cs) = false := by
  induction cs generalizing gap with
  | nil => rfl
  | cons c cs ih =>
    cases blank : isBlank c with
    | true =>
      rw [marksFrom_blank blank]
      exact ih (cons_ne_nil c gap)
    | false =>
      rw [marksFrom_solid blank, joinedBy, List.isEmpty_eq_false_iff.mpr some, Bool.false_and, Bool.false_and]

theorem joinedBy_marksFrom (pair : joins last d = true) (solid : isBlank d = false) (cs : List Char) :
    joinedBy d (marksFrom b last [] cs) = true ↔ ∃ rest, cs = d :: rest := by
  cases cs with
  | nil => simp [joinedBy]
  | cons c cs =>
    cases blank : isBlank c with
    | true =>
      rw [marksFrom_blank blank, joinedBy_of_gap (cons_ne_nil c [])]
      simp only [Bool.false_eq_true, List.cons.injEq, false_iff]
      rintro ⟨rest, rfl, -⟩
      simp [solid] at blank
    | false =>
      rw [marksFrom_solid blank, joinedBy]
      simp only [List.isEmpty_nil, Bool.true_and, Bool.and_eq_true, beq_iff_eq, List.cons.injEq]
      constructor
      · rintro ⟨-, rfl⟩
        exact ⟨cs, rfl, rfl⟩
      · rintro ⟨rest, rfl, -⟩
        exact ⟨pair, rfl⟩

theorem blockEnd?_marksFrom (cs : List Char) :
    blockEnd? (marksFrom b last gap cs) = (block? cs).map fun (_, after) => marksFrom b '/' [] after := by
  fun_induction block? cs generalizing last gap with
  | case1 => rfl
  | case2 rest =>
    rw [marksFrom_solid (by decide), marksFrom_solid (by decide)]
    rfl
  | case3 c rest other ih =>
    rw [map_map]
    cases blank : isBlank c with
    | true =>
      rw [marksFrom_blank blank, ih]
      rfl
    | false =>
      rw [marksFrom_solid blank, blockEnd?, if_neg, ih]
      · rfl
      · rw [Bool.and_eq_true, beq_iff_eq]
        rintro ⟨rfl, joined⟩
        obtain ⟨more, rfl⟩ := (joinedBy_marksFrom (by decide) (by decide) rest).mp joined
        exact other more rfl rfl

theorem marksFrom_append_solid (solid : isBlank c = false) (xs ys : List Char) :
    marksFrom b last gap (xs ++ c :: ys) = marksFrom b last gap (xs ++ [c]) ++ marksFrom b c [] ys := by
  induction xs generalizing last gap with
  | nil => simp [marksFrom_solid solid]
  | cons x xs ih =>
    rw [cons_append, cons_append]
    cases blank : isBlank x with
    | true => rw [marksFrom_blank blank, marksFrom_blank blank, ih]
    | false => rw [marksFrom_solid blank, marksFrom_solid blank, ih, cons_append]

theorem exists_quote_of_literal? {body after : List Char} (found : literal? '"' cs = some (body, after)) :
    ∃ inner, body = inner ++ ['"'] := by
  fun_induction literal? '"' cs generalizing body with
  | case1 => simp at found
  | case2 c rest ih =>
    obtain ⟨⟨inner, rest'⟩, there, same⟩ := map_eq_some_iff.mp found
    simp only [Prod.mk.injEq] at same
    obtain ⟨more, rfl⟩ := ih (same.2 ▸ there)
    exact ⟨'\\' :: c :: more, by simp [← same.1]⟩
  | case3 c rest single quote =>
    simp only [some.injEq, Prod.mk.injEq] at found
    exact ⟨[], by simp [← found.1, beq_iff_eq.mp quote]⟩
  | case4 => simp at found
  | case5 c rest single plain other ih =>
    obtain ⟨⟨inner, rest'⟩, there, same⟩ := map_eq_some_iff.mp found
    simp only [Prod.mk.injEq] at same
    obtain ⟨more, rfl⟩ := ih (same.2 ▸ there)
    exact ⟨c :: more, by simp [← same.1]⟩

theorem literalEnd?_quote (quote : m.char = '"') (ms : List Mark) : literalEnd? (m :: ms) = some ([m], ms) := by
  cases ms <;> rw [literalEnd?, if_pos (by simpa using quote)]

theorem literalEnd?_step (plain : m.char ≠ '"') (free : m.char = '\\' → ∀ n ∈ ms.head?, n.joined = false) :
    literalEnd? (m :: ms) = (literalEnd? ms).map fun (body, after) => (m :: body, after) := by
  cases ms with
  | nil => exact if_neg (by simpa using plain)
  | cons n rest =>
    rw [literalEnd?, if_neg (by simpa using plain), if_neg]
    rw [Bool.and_eq_true, beq_iff_eq]
    rintro ⟨back, joined⟩
    simp [free back n rfl] at joined

theorem not_joined_of_gap (some : gap ≠ []) (cs : List Char) :
    ∀ n ∈ (marksFrom b last gap cs).head?, n.joined = false := by
  induction cs generalizing gap with
  | nil => simp
  | cons c cs ih =>
    cases blank : isBlank c with
    | true =>
      rw [marksFrom_blank blank]
      exact ih (cons_ne_nil c gap)
    | false =>
      rw [marksFrom_solid blank]
      simp [some]

/-- The marks tell where a literal ends: a backslash before a blank escapes nothing that ends it. -/
theorem literalEnd?_marksFrom (cs : List Char) : literalEnd? (marksFrom b last gap cs) =
      (literal? '"' cs).map fun (body, after) => (marksFrom b last gap body, marksFrom b '"' [] after) := by
  fun_induction literal? '"' cs generalizing last gap with
  | case1 => rfl
  | case2 c rest ih =>
    have back (cs : List Char) : marksFrom b last gap ('\\' :: cs) = _ :: marksFrom b '\\' [] cs :=
      marksFrom_solid (by decide) cs
    rw [map_map, back]
    cases blank : isBlank c with
    | true =>
      rw [marksFrom_blank blank, literalEnd?_step (by simp) fun _ => not_joined_of_gap (cons_ne_nil c []) rest, ih,
        map_map]
      refine congrArg (Option.map · _) (funext ?_)
      rintro ⟨body, after⟩
      simp [back, marksFrom_blank blank]
    | false =>
      rw [marksFrom_solid blank]
      by_cases joined : joins '\\' c = true
      · rw [literalEnd?, if_neg (by simp), if_pos (by simp [joined]), ih, map_map]
        refine congrArg (Option.map · _) (funext ?_)
        rintro ⟨body, after⟩
        simp [back, marksFrom_solid blank]
      · have plain : c ≠ '"' ∧ c ≠ '\\' := by
          constructor
          · rintro rfl
            exact joined (by decide)
          · rintro rfl
            exact joined (by decide)
        rw [literalEnd?_step (by simp) (by simp [joined]), literalEnd?_step plain.1 fun same => absurd same plain.2,
          ih, map_map, map_map]
        refine congrArg (Option.map · _) (funext ?_)
        rintro ⟨body, after⟩
        simp [back, marksFrom_solid blank]
  | case3 c rest single quote =>
    obtain rfl := beq_iff_eq.mp quote
    rw [marksFrom_solid (by decide), literalEnd?_quote rfl, map_some]
    rfl
  | case4 c rest single plain back =>
    obtain rfl := beq_iff_eq.mp back
    have nothing : rest = [] := by
      cases rest with
      | nil => rfl
      | cons d rest => exact (single d rest rfl rfl).elim
    rw [nothing, marksFrom_solid (by decide)]
    rfl
  | case5 c rest single plain other ih =>
    rw [map_map]
    cases blank : isBlank c with
    | true =>
      rw [marksFrom_blank blank, ih]
      refine congrArg (Option.map · _) (funext ?_)
      rintro ⟨body, after⟩
      simp [marksFrom_blank blank]
    | false =>
      rw [marksFrom_solid blank, literalEnd?_step (by simpa using plain) (fun same => absurd same (by simpa using other)),
        ih, map_map]
      refine congrArg (Option.map · _) (funext ?_)
      rintro ⟨body, after⟩
      simp [marksFrom_solid blank]

/-- What stands last behind a text: a character that is no blank, and the blanks behind it. -/
def reach (last : Char) (gap : List Char) : List Char → Char × List Char
  | [] => (last, gap)
  | c :: cs => if isBlank c then reach last (c :: gap) cs else reach c [] cs

theorem reach_append (xs ys : List Char) :
    reach last gap (xs ++ ys) = reach (reach last gap xs).1 (reach last gap xs).2 ys := by
  induction xs generalizing last gap with
  | nil => rfl
  | cons c xs ih =>
    rw [cons_append, reach, reach]
    split <;> exact ih

theorem marksFrom_append (xs ys : List Char) : marksFrom b last gap (xs ++ ys) =
    marksFrom b last gap xs ++ marksFrom b (reach last gap xs).1 (reach last gap xs).2 ys := by
  induction xs generalizing last gap with
  | nil => rfl
  | cons c xs ih =>
    rw [cons_append, marksFrom, marksFrom, reach]
    split
    · exact ih
    · rw [ih, cons_append]

theorem codeOf_congr (same : n.shape = m.shape) : codeOf (n :: ms) = codeOf (m :: ms) := by
  have char : n.char = m.char := congrArg fst same
  rw [codeOf, codeOf, char, same]

theorem loosen_of_gap (some : gap ≠ []) (cs : List Char) :
    loosen (marksFrom b last gap cs) = marksFrom b last gap cs := by
  have free : ∀ n ∈ (marksFrom b last gap cs).head?, n.joined = false := not_joined_of_gap some cs
  cases form : marksFrom b last gap cs with
  | nil => rfl
  | cons m ms =>
    rw [form] at free
    rw [loosen, ← free m rfl]

theorem codeOf_loosen {last' : Char} {gap' : List Char} (some : gap' ≠ []) (cs : List Char) :
    codeOf (loosen (marksFrom b last gap cs)) = codeOf (marksFrom b last' gap' cs) := by
  induction cs generalizing gap gap' with
  | nil => rfl
  | cons c cs ih =>
    cases blank : isBlank c with
    | true =>
      rw [marksFrom_blank blank, marksFrom_blank blank]
      exact ih (cons_ne_nil c gap')
    | false =>
      rw [marksFrom_solid blank, marksFrom_solid blank]
      exact codeOf_congr (by simp [Mark.shape, some])

/-- A mark of a comment that opens a line begins a comment there. -/
def Hidden : List Mark → Prop
  | [] => True
  | m :: ms => (m.opens = true → m.char = '-' ∧ joinedBy '-' ms = true) ∧ Hidden ms

theorem nextLine_of_opens (opens : ∀ m ∈ ms.head?, m.opens = true) : nextLine ms = ms := by
  cases ms with
  | nil => rfl
  | cons m ms => exact List.dropWhile_cons_of_neg (by simp [opens m rfl])

theorem codeOf_comment (first : m.char = '-') (second : n.char = '-') (joined : n.joined = true) :
    codeOf (m :: n :: ms) = codeOf (nextLine ms) := by
  rw [codeOf, dif_pos ⟨first, by simp [joinedBy, second, joined]⟩, List.tail_cons]

theorem codeOf_block (slash : m.char = '/') (star : n.char = '*')
    (joined : n.joined = true) (closed : blockEnd? ms = some after) : codeOf (m :: n :: ms) = codeOf (loosen after) := by
  rw [codeOf, dif_neg (by simp [slash]), dif_pos ⟨slash, by simp [joinedBy, star, joined]⟩]
  split
  · next other there =>
    obtain rfl := some.inj (closed.symm.trans there)
    rfl
  · next there => exact absurd (closed.symm.trans there) (by simp)

theorem codeOf_literal {body after : List Mark} (quote : m.char = '"') (closed : literalEnd? ms = some (body, after)) :
    codeOf (m :: ms) = m.shape :: (body.map Mark.shape ++ codeOf after) := by
  rw [codeOf, dif_neg (by simp [quote]), dif_neg (by simp [quote]), if_pos quote]
  split
  · next there =>
    rw [closed, some.injEq, Prod.mk.injEq] at there
    rw [there.1, there.2]
  · next there => simp [closed] at there

theorem codeOf_step (comment : m.char = '-' → joinedBy '-' ms = false)
    (block : m.char = '/' → joinedBy '*' ms = true → blockEnd? ms.tail = none)
    (literal : m.char = '"' → literalEnd? ms = none) : codeOf (m :: ms) = m.shape :: codeOf ms := by
  rw [codeOf, dif_neg (by rintro ⟨dash, joined⟩; simp [comment dash] at joined)]
  split
  · next opens =>
    split
    · next there => rw [block opens.1 opens.2] at there; exact absurd there (by simp)
    · rfl
  · split
    · next quote =>
      split
      · next there => simp [literal quote] at there
      · rfl
    · rfl

/-- A comment that is hidden on each of its lines is left out as a whole. -/
theorem codeOf_hidden {hs rs : List Mark} (hidden : Hidden hs) (opens : ∀ m ∈ rs.head?, m.opens = true) :
    codeOf (nextLine (hs ++ rs)) = codeOf rs := by
  match hs with
  | [] => rw [List.nil_append, nextLine_of_opens opens]
  | m :: hs =>
    cases first : m.opens with
    | false =>
      have skip : nextLine (m :: hs ++ rs) = nextLine (hs ++ rs) := List.dropWhile_cons_of_pos (by simp [first])
      rw [skip]
      exact codeOf_hidden hidden.2 opens
    | true =>
      obtain ⟨dash, joined⟩ := hidden.1 first
      have stay : nextLine (m :: hs ++ rs) = m :: (hs ++ rs) := nextLine_of_opens (by simpa using first)
      match hs with
      | [] => simp [joinedBy] at joined
      | n :: hs =>
        rw [joinedBy, Bool.and_eq_true, beq_iff_eq] at joined
        rw [stay, cons_append, codeOf_comment dash joined.2 joined.1]
        exact codeOf_hidden hidden.2.2 opens
termination_by hs.length

def lineComments : List Char → List (List Char)
  | [] => []
  | '-' :: '-' :: rest => rest.takeWhile (· != '\n') :: lineComments (rest.dropWhile (· != '\n'))
  | '/' :: '*' :: rest =>
    match _h : block? rest with
    | some (_, after) => lineComments after
    | none => lineComments ('*' :: rest)
  | '"' :: rest =>
    match _h : literal? '"' rest with
    | some (_, after) => lineComments after
    | none => lineComments rest
  | _ :: rest => lineComments rest
termination_by cs => cs.length
decreasing_by
  all_goals simp only [length_cons]
  · have := length_dropWhile_le (· != '\n') rest
    omega
  · have := block?_length _h
    omega
  · omega
  · have := literal?_length _h
    omega
  · omega
  · omega

theorem lineComments_block {after : List Char} (found : block? rest = some (body, after)) :
    lineComments ('/' :: '*' :: rest) = lineComments after := by
  rw [lineComments]
  split <;> simp_all

theorem lineComments_unclosed_block (open_ : block? rest = none) :
    lineComments ('/' :: '*' :: rest) = lineComments ('*' :: rest) := by
  rw [lineComments]
  split <;> simp_all

theorem lineComments_literal {after : List Char} (found : literal? '"' rest = some (body, after)) :
    lineComments ('"' :: rest) = lineComments after := by
  rw [lineComments]
  split <;> simp_all

theorem lineComments_unclosed_literal (open_ : literal? '"' rest = none) :
    lineComments ('"' :: rest) = lineComments rest := by
  rw [lineComments]
  split <;> simp_all

theorem opens_of_feed (feed : ∀ last gap c, '\n' ∈ gap → b last gap c = true) (mem : '\n' ∈ gap) (cs : List Char) :
    ∀ m ∈ (marksFrom b last gap cs).head?, m.opens = true := by
  induction cs generalizing gap with
  | nil => simp
  | cons c cs ih =>
    cases blank : isBlank c with
    | true =>
      rw [marksFrom_blank blank]
      exact ih (List.mem_cons_of_mem c mem)
    | false =>
      rw [marksFrom_solid blank]
      simp [feed last gap c mem]

theorem codeOf_marksFrom {b' : Breaks} (feed : ∀ last gap c, '\n' ∈ gap → b last gap c = true)
    (hidden : ∀ body ∈ lineComments cs, Hidden (marksFrom b '-' [] body)) :
    codeOf (marksFrom b last gap cs) = (marksFrom b' last gap (blankComments cs)).map Mark.shape := by
  fun_induction blankComments cs generalizing last gap with
  | case1 => rw [marksFrom_nil, codeOf]; rfl
  | case2 rest ih =>
    rw [lineComments, List.forall_mem_cons] at hidden
    rw [marksFrom_pair (by decide) (by decide), codeOf_comment rfl rfl rfl,
      marksFrom_blank (c := ' ') (by decide), ← ih hidden.2]
    conv_lhs => rw [← List.takeWhile_append_dropWhile (p := (· != '\n')) (l := rest)]
    rw [marksFrom_append]
    have stops := List.head?_dropWhile_not (· != '\n') rest
    cases tail : rest.dropWhile (· != '\n') with
    | nil => rw [codeOf_hidden hidden.1 (by simp)]; rfl
    | cons c cs =>
      obtain rfl : c = '\n' := by simpa [tail] using stops
      rw [marksFrom_blank (by decide), marksFrom_blank (by decide),
        codeOf_hidden hidden.1 (opens_of_feed feed mem_cons_self cs), ← loosen_of_gap (cons_ne_nil _ _),
        codeOf_loosen (cons_ne_nil _ _)]
  | case3 rest body after found ih =>
    have closed : blockEnd? (marksFrom b '*' [] rest) = some (marksFrom b '/' [] after) := by
      rw [blockEnd?_marksFrom, found, map_some]
    rw [lineComments_block found] at hidden
    rw [marksFrom_pair (by decide) (by decide), codeOf_block rfl rfl rfl closed, marksFrom_blank (c := ' ') (by decide),
      ← ih hidden, codeOf_loosen (cons_ne_nil _ _)]
  | case4 rest none ih =>
    have closed : blockEnd? (marksFrom b '*' [] rest) = .none := by
      rw [blockEnd?_marksFrom, none, map_none]
    rw [lineComments_unclosed_block none] at hidden
    rw [marksFrom_solid (by decide), codeOf_step (by simp) (fun _ _ => ?_) (by simp), ih hidden,
      marksFrom_solid (c := '/') (by decide)]
    · rfl
    · rw [marksFrom_solid (by decide), List.tail_cons, closed]
  | case5 rest body after found ih =>
    have closed : literalEnd? (marksFrom b '"' [] rest) = some (marksFrom b '"' [] body, marksFrom b '"' [] after) := by
      rw [literalEnd?_marksFrom, found, map_some]
    rw [lineComments_literal found] at hidden
    obtain ⟨inner, rfl⟩ := exists_quote_of_literal? found
    have whole : marksFrom b' '"' [] (inner ++ '"' :: blankComments after) = _ := marksFrom_append_solid (by decide) _ _
    rw [marksFrom_solid (by decide), codeOf_literal rfl closed, ih hidden, cons_append, marksFrom_solid (by decide),
      append_assoc, singleton_append, whole, map_cons, List.map_append, shapes_marksFrom b b']
    rfl
  | case6 rest none ih =>
    have closed : literalEnd? (marksFrom b '"' [] rest) = .none := by
      rw [literalEnd?_marksFrom, none, map_none]
    rw [lineComments_unclosed_literal none] at hidden
    rw [marksFrom_solid (by decide), codeOf_step (by simp) (by simp) (fun _ => closed), ih hidden,
      marksFrom_solid (by decide)]
    rfl
  | case7 c rest dash slash quote ih =>
    have later : lineComments (c :: rest) = lineComments rest := by
      rw [lineComments]
      exacts [dash, slash, quote]
    rw [later] at hidden
    cases blank : isBlank c with
    | true => rw [marksFrom_blank blank, marksFrom_blank blank, ih hidden]
    | false =>
      rw [marksFrom_solid blank, codeOf_step, ih hidden, marksFrom_solid blank]
      · rfl
      · rintro rfl
        rw [Bool.eq_false_iff, ne_eq, joinedBy_marksFrom (by decide) (by decide)]
        exact fun ⟨more, same⟩ => dash more rfl same
      · rintro rfl joined
        obtain ⟨more, same⟩ := (joinedBy_marksFrom (by decide) (by decide) rest).mp joined
        exact (slash more rfl same).elim
      · exact fun same => (quote same).elim

theorem feed_not_mem_lineComments (member : body ∈ lineComments cs) : '\n' ∉ body := by
  fun_induction lineComments cs with
  | case1 => exact absurd member not_mem_nil
  | case2 rest ih =>
    rcases List.mem_cons.mp member with rfl | later
    · intro inside
      exact absurd (List.mem_takeWhile_imp inside) (by decide)
    · exact ih later
  | case3 rest body after found ih => exact ih member
  | case4 rest none ih => exact ih member
  | case5 rest body after found ih => exact ih member
  | case6 rest none ih => exact ih member
  | case7 c rest dash slash quote ih => exact ih member

theorem hidden_of_single (before : '\n' ∉ gap) (single : '\n' ∉ cs) : Hidden (marksFrom feeds last gap cs) := by
  induction cs generalizing last gap with
  | nil => trivial
  | cons c cs ih =>
    rw [mem_cons, not_or] at single
    cases blank : isBlank c with
    | true =>
      rw [marksFrom_blank blank]
      refine ih ?_ single.2
      rw [mem_cons, not_or]
      exact ⟨single.1, before⟩
    | false =>
      rw [marksFrom_solid blank]
      refine ⟨fun opens => ?_, ih not_mem_nil single.2⟩
      exact absurd (show '\n' ∈ gap by simpa [feeds] using opens) before

theorem feeds_of_mem (last : Char) (gap : List Char) (c : Char) (mem : '\n' ∈ gap) : feeds last gap c = true := by
  simpa [feeds] using mem

/-- The code of a text is what its marks tell. -/
theorem codeOf_marks (cs : List Char) : codeOf (marks feeds cs) = (marks feeds (blankComments cs)).map Mark.shape :=
  codeOf_marksFrom feeds_of_mem fun _ member => hidden_of_single not_mem_nil (feed_not_mem_lineComments member)

theorem chars_marksFrom (cs : List Char) : (marksFrom b last gap cs).map (·.char) = solids cs := by
  induction cs generalizing last gap with
  | nil => rfl
  | cons c cs ih =>
    cases blank : isBlank c with
    | true => rw [marksFrom_blank blank, ih, solids, solids, List.filter_cons_of_neg (by simp [blank])]
    | false =>
      rw [marksFrom_solid blank, map_cons, ih, solids, solids, List.filter_cons_of_pos (by simp [blank])]

theorem marksFrom_of_blank (blank : ∀ c ∈ cs, isBlank c = true) : marksFrom b last gap cs = [] := by
  have none : (marksFrom b last gap cs).map (·.char) = solids cs := chars_marksFrom cs
  rwa [solids_of_blank blank, List.map_eq_nil_iff] at none

section Lines

theorem marksFrom_behind_gap {last' : Char} {gap' : List Char} (some : gap ≠ []) (some' : gap' ≠ [])
    (same : ∀ more c, b last (more ++ gap) c = b last' (more ++ gap') c) (cs : List Char) :
    marksFrom b last gap cs = marksFrom b last' gap' cs := by
  induction cs generalizing gap gap' with
  | nil => rfl
  | cons c cs ih =>
    cases blank : isBlank c with
    | true =>
      rw [marksFrom_blank blank, marksFrom_blank blank]
      refine ih (cons_ne_nil c gap) (cons_ne_nil c gap') fun more d => ?_
      have longer := same (more ++ [c]) d
      rwa [append_assoc, append_assoc, singleton_append, singleton_append] at longer
    | false =>
      have here : b last gap c = b last' gap' c := same [] c
      rw [marksFrom_solid blank, marksFrom_solid blank, here, List.isEmpty_eq_false_iff.mpr some,
        List.isEmpty_eq_false_iff.mpr some', Bool.false_and, Bool.false_and]

theorem marksFrom_of_feed (feed : ∀ last gap c, '\n' ∈ gap → b last gap c = true) (mem : '\n' ∈ gap)
    (cs : List Char) : marksFrom b last gap cs = marks b cs := by
  refine marksFrom_behind_gap (List.ne_nil_of_mem mem) (cons_ne_nil _ _) (fun more c => ?_) cs
  rw [feed _ _ c (List.mem_append_right more mem), feed _ _ c (List.mem_append_right more mem_cons_self)]

theorem marksFrom_gap {spaces : List Char} (blank : ∀ c ∈ spaces, isBlank c = true) (cs : List Char) :
    marksFrom b last gap (spaces ++ cs) = marksFrom b last (spaces.reverse ++ gap) cs := by
  induction spaces generalizing gap with
  | nil => rfl
  | cons c spaces ih =>
    rw [List.forall_mem_cons] at blank
    rw [cons_append, marksFrom_blank blank.1, ih blank.2, List.reverse_cons, append_assoc,
      singleton_append]

theorem marks_lead (feed : ∀ last gap c, '\n' ∈ gap → b last gap c = true) {lead : List Char}
    (blank : ∀ c ∈ lead, isBlank c = true) (cs : List Char) : marks b (lead ++ cs) = marks b cs := by
  rw [marks, marksFrom_gap blank, marksFrom_of_feed feed (by simp)]

theorem marksFrom_trail {trail : List Char} (blank : ∀ c ∈ trail, isBlank c = true) (cs : List Char) :
    marksFrom b last gap (cs ++ trail) = marksFrom b last gap cs := by
  rw [marksFrom_append, marksFrom_of_blank blank, append_nil]

theorem marks_trimmed (feed : ∀ last gap c, '\n' ∈ gap → b last gap c = true) (cs : List Char) :
    marks b (trimmed cs) = marks b cs := by
  obtain ⟨lead, trail, whole, before, behind⟩ := exists_trimmed cs
  conv_rhs => rw [whole]
  rw [marks_lead feed before, marks, marks, marksFrom_trail behind]

/-- The marks of lines that are put together are the marks of each of them. -/
theorem marks_unlines (ls : List (List Char)) : marks feeds (unlines ls) = ls.flatMap (marks feeds) := by
  induction ls with
  | nil => rfl
  | cons l ls ih =>
    rw [unlines_cons, List.flatMap_cons, ← ih, marks, marksFrom_append, marksFrom_blank (by decide)]
    exact congrArg _ (marksFrom_of_feed feeds_of_mem mem_cons_self _)

/-- Blanks that end no line. -/
def InLine (cs : List Char) : Prop :=
  ∀ c ∈ cs, isBlank c = true ∧ c ≠ '\n'

theorem InLine.blank (inside : InLine cs) : ∀ c ∈ cs, isBlank c = true :=
  fun c member => (inside c member).1

theorem InLine.append {ds : List Char} (first : InLine cs) (second : InLine ds) : InLine (cs ++ ds) :=
  fun c member => (List.mem_append.mp member).elim (first c) (second c)

theorem InLine.not_feed (inside : InLine cs) : '\n' ∉ cs :=
  fun member => (inside '\n' member).2 rfl

theorem inLine_replicate {n : Nat} : InLine (List.replicate n ' ') := by
  intro c member
  rw [List.eq_of_mem_replicate member]
  decide

theorem inLine_nil : InLine [] := by
  intro c member
  exact absurd member not_mem_nil

theorem inLine_space : InLine [' '] := by
  intro c member
  rw [List.mem_singleton.mp member]
  decide

theorem inLine_of_blank (blank : ∀ c ∈ cs, isBlank c = true) (single : '\n' ∉ cs) : InLine cs :=
  fun c member => ⟨blank c member, fun feed => single (feed ▸ member)⟩

theorem marksFrom_respace {spaces spaces' : List Char} (inside : InLine spaces) (inside' : InLine spaces')
    (apart : ∀ c ∈ cs.head?, isBlank c = true ∨ joins last c = false ∨ (spaces = [] ↔ spaces' = [])) :
    marksFrom feeds last [] (spaces ++ cs) = marksFrom feeds last [] (spaces' ++ cs) := by
  rw [marksFrom_gap inside.blank, marksFrom_gap inside'.blank, append_nil, append_nil]
  cases cs with
  | nil => rfl
  | cons c cs =>
    have feed (more : List Char) (d : Char) :
        feeds last (more ++ spaces.reverse) d = feeds last (more ++ spaces'.reverse) d := by
      simp [feeds, inside.not_feed, inside'.not_feed]
    cases blank : isBlank c with
    | true =>
      rw [marksFrom_blank blank, marksFrom_blank blank]
      refine marksFrom_behind_gap (cons_ne_nil c _) (cons_ne_nil c _) (fun more d => ?_) cs
      rw [← singleton_append, ← append_assoc, ← singleton_append (l := spaces'.reverse),
        ← append_assoc, feed]
    | false =>
      have same : (spaces.reverse.isEmpty && joins last c) = (spaces'.reverse.isEmpty && joins last c) := by
        rcases apart c rfl with other | free | both
        · simp [blank] at other
        · simp [free]
        · have empty : spaces.reverse.isEmpty = spaces'.reverse.isEmpty := by
            rw [Bool.eq_iff_iff, List.isEmpty_iff, List.isEmpty_iff, List.reverse_eq_nil_iff, List.reverse_eq_nil_iff, both]
          rw [empty]
      have here : feeds last spaces.reverse c = feeds last spaces'.reverse c := feed [] c
      rw [marksFrom_solid blank, marksFrom_solid blank, same, here]

theorem marksFrom_keep {ds : List Char} (solid : isBlank c = false) (xs : List Char)
    (later : marksFrom b c [] cs = marksFrom b c [] ds) :
    marksFrom b last gap (xs ++ c :: cs) = marksFrom b last gap (xs ++ c :: ds) := by
  rw [marksFrom_append_solid solid, later, ← marksFrom_append_solid solid]

theorem mem_reach (xs : List Char) (member : c ∈ (reach last gap xs).2) : c ∈ xs ∨ c ∈ gap := by
  induction xs generalizing last gap with
  | nil => exact Or.inr member
  | cons x xs ih =>
    rw [reach] at member
    split at member
    · rcases ih member with later | before
      · exact Or.inl (List.mem_cons_of_mem x later)
      · rcases List.mem_cons.mp before with rfl | before
        · exact Or.inl mem_cons_self
        · exact Or.inr before
    · rcases ih member with later | before
      · exact Or.inl (List.mem_cons_of_mem x later)
      · exact absurd before not_mem_nil

end Lines

end VhdlWorkbench.Source

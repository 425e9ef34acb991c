import VhdlWorkbench.Proofs.CommentLines

/-!
Rows that are laid out anew keep the code of a text if no line comment exposes anything.
-/

namespace VhdlWorkbench.Source

open Text List

section Tokens

def extend (c : Char) : List (List Char) → List (List Char)
  | [] => [[c]]
  | word :: rest => (c :: word) :: rest

/-- The longest words of a text, and its other characters that are no blanks. -/
def tokens : List Char → List (List Char)
  | [] => []
  | c :: cs =>
    if isBlank c then tokens cs
    else if isWord c && cs.head?.any isWord then extend c (tokens cs)
    else [c] :: tokens cs

def tokensOf : List (Char × Bool) → List (List Char)
  | [] => []
  | (c, _) :: rest =>
    if isWord c && rest.head?.any (fun next => next.2 && isWord next.1) then extend c (tokensOf rest)
    else [c] :: tokensOf rest

theorem tokens_eq (b : Breaks) (last : Char) (gap cs : List Char) :
    tokens cs = tokensOf ((marksFrom b last gap cs).map Mark.shape) := by
  induction cs generalizing last gap with
  | nil => rfl
  | cons c cs ih =>
    cases blank : isBlank c with
    | true => rw [tokens, if_pos blank, marksFrom_blank blank, ih last (c :: gap)]
    | false =>
      have next (wordy : isWord c = true) : cs.head?.any isWord =
          ((marksFrom b c [] cs).map Mark.shape).head?.any (fun next => next.2 && isWord next.1) := by
        cases cs with
        | nil => rfl
        | cons d ds =>
          cases blank' : isBlank d with
          | true =>
            have apart : ∀ n ∈ (marksFrom b c [d] ds).head?, n.joined = false :=
              not_joined_of_gap (cons_ne_nil d []) ds
            rw [marksFrom_blank blank']
            cases form : marksFrom b c [d] ds with
            | nil => simp [isWord_of_isBlank blank']
            | cons m ms => simp [isWord_of_isBlank blank', Mark.shape, apart m (by rw [form]; rfl)]
          | false =>
            rw [marksFrom_solid blank']
            cases wordy' : isWord d <;> simp [Mark.shape, joins, wordy, wordy']
      have same : (isWord c && cs.head?.any isWord) = (isWord c &&
          ((marksFrom b c [] cs).map Mark.shape).head?.any (fun next => next.2 && isWord next.1)) := by
        cases wordy : isWord c with
        | false => rfl
        | true => rw [next wordy]
      rw [tokens, if_neg (by simp [blank]), same, ih c [], marksFrom_solid blank]
      rfl

end Tokens

section Alike

variable {last c : Char} {spaces spaces' xs cs ds : List Char}

/-- Behind any character and any blanks of a line the two texts have the same marks. -/
def Alike (cs ds : List Char) : Prop :=
  ∀ last gap, InLine gap → marksFrom feeds last gap cs = marksFrom feeds last gap ds

theorem InLine.reverse (inside : InLine cs) : InLine cs.reverse :=
  fun c member => inside c (mem_reverse.mp member)

theorem inLine_reach {gap : List Char} (inside : InLine gap) (single : '\n' ∉ xs) : InLine (reach last gap xs).2 := by
  induction xs generalizing last gap with
  | nil => exact inside
  | cons x xs ih =>
    rw [mem_cons, not_or] at single
    rw [reach]
    split
    · next blank =>
      refine ih (fun c member => ?_) single.2
      rcases mem_cons.mp member with rfl | before
      · exact ⟨blank, Ne.symm single.1⟩
      · exact inside c before
    · exact ih (fun c member => absurd member not_mem_nil) single.2

theorem Alike.alone (alone : standsAlone c = true) (solid : isBlank c = false) (inside : InLine spaces)
    (inside' : InLine spaces') (later : marksFrom feeds c [] cs = marksFrom feeds c [] ds) :
    Alike (spaces ++ c :: cs) (spaces' ++ c :: ds) := by
  intro last gap before
  have same : feeds last (spaces.reverse ++ gap) c = feeds last (spaces'.reverse ++ gap) c := by
    simp [feeds, inside.not_feed, inside'.not_feed]
  rw [marksFrom_gap inside.blank, marksFrom_gap inside'.blank, marksFrom_solid solid, marksFrom_solid solid,
    not_joins_right alone, later, same, Bool.and_false, Bool.and_false]

theorem Alike.text (single : '\n' ∉ xs) (same : Alike cs ds) : Alike (xs ++ cs) (xs ++ ds) := by
  intro last gap before
  rw [marksFrom_append, marksFrom_append, same _ _ (inLine_reach before single)]

theorem Alike.respaced (inside : InLine spaces) (inside' : InLine spaces')
    (apart : ∀ c ∈ cs.head?, isBlank c = true ∨ joins last c = false ∨ (spaces = [] ↔ spaces' = []))
    (same : Alike cs ds) : marksFrom feeds last [] (spaces ++ cs) = marksFrom feeds last [] (spaces' ++ ds) := by
  rw [marksFrom_respace inside inside' apart, marksFrom_gap inside'.blank, marksFrom_gap inside'.blank, append_nil]
  exact same last _ inside'.reverse

theorem Alike.spaced (alone : standsAlone last = true) (inside : InLine spaces) (inside' : InLine spaces')
    (same : Alike cs ds) : marksFrom feeds last [] (spaces ++ cs) = marksFrom feeds last [] (spaces' ++ ds) :=
  same.respaced inside inside' fun c _ => Or.inr (Or.inl (not_joins_left alone c))

end Alike

section Thinned

variable {c : Char} {ms ms' ns ns' : List Mark}

/-- The marks of an empty comment behind other marks. -/
def bare : List Mark := [⟨'-', false, false⟩, ⟨'-', true, false⟩]

/-- Some empty comments behind a semicolon are left out, in a text without quotes. -/
inductive Thinned : List Mark → List Mark → Prop
  | nil : Thinned [] []
  | keep {m : Mark} {ms ns : List Mark} : m.char ≠ '"' → Thinned ms ns → Thinned (m :: ms) (m :: ns)
  | drop {opens : Bool} {ms ns : List Mark} : (∀ m ∈ ms.head?, m.opens = true ∧ m.joined = false) → Thinned ms ns →
      Thinned (⟨';', false, opens⟩ :: (bare ++ ms)) (⟨';', false, opens⟩ :: ns)

theorem Thinned.behind (free : ∀ m ∈ ms, m.char ≠ '"') (thin : Thinned ms' ns') : Thinned (ms ++ ms') (ms ++ ns') := by
  induction ms with
  | nil => exact thin
  | cons m ms ih =>
    rw [forall_mem_cons] at free
    exact .keep free.1 (ih free.2)

theorem Thinned.refl (free : ∀ m ∈ ms, m.char ≠ '"') : Thinned ms ms := by
  have whole := Thinned.behind free .nil
  rwa [append_nil] at whole

section

variable (thin : Thinned ms ns)
include thin

theorem Thinned.append (thin' : Thinned ms' ns') (fresh : ∀ m ∈ ms'.head?, m.opens = true ∧ m.joined = false) :
    Thinned (ms ++ ms') (ns ++ ns') := by
  induction thin with
  | nil => exact thin'
  | keep plain _ ih => exact .keep plain ih
  | @drop opens ms ns ends _ ih =>
    refine .drop ?_ ih
    cases ms with
    | nil => exact fresh
    | cons m ms => exact ends

theorem Thinned.joinedBy_eq : joinedBy c ms = joinedBy c ns := by
  cases thin <;> rfl

theorem Thinned.tail (joined : joinedBy c ms = true) : Thinned ms.tail ns.tail := by
  cases thin with
  | nil => exact .nil
  | keep _ later => exact later
  | drop _ _ => exact absurd joined (by simp [joinedBy])

theorem Thinned.loosen : Thinned (loosen ms) (loosen ns) := by
  cases thin with
  | nil => exact .nil
  | keep plain later => exact .keep plain later
  | drop ends later => exact .drop ends later

theorem Thinned.nextLine : Thinned (nextLine ms) (nextLine ns) := by
  have skip {m : Mark} (inside : m.opens = false) (ms : List Mark) : Source.nextLine (m :: ms) = Source.nextLine ms :=
    dropWhile_cons_of_pos (by simp [inside])
  have stay {m : Mark} (opens : m.opens = true) (ms : List Mark) : Source.nextLine (m :: ms) = m :: ms :=
    dropWhile_cons_of_neg (by simp [opens])
  induction thin with
  | nil => exact .nil
  | @keep m ms ns plain later ih =>
    cases first : m.opens with
    | false => rwa [skip first, skip first]
    | true =>
      rw [stay first, stay first]
      exact .keep plain later
  | @drop opens ms ns ends later ih =>
    cases opens with
    | false => rwa [skip rfl, bare, cons_append, skip rfl, cons_append, skip rfl, nil_append, skip rfl]
    | true =>
      rw [stay rfl, stay rfl]
      exact .drop ends later

theorem Thinned.blockEnd : Option.Rel Thinned (blockEnd? ms) (blockEnd? ns) := by
  induction thin with
  | nil => exact .none
  | @keep m ms ns plain later ih =>
    rw [blockEnd?, blockEnd?, ← later.joinedBy_eq]
    split
    · next found =>
      rw [Bool.and_eq_true] at found
      exact .some (later.tail found.2)
    · exact ih
  | drop _ _ ih => exact ih

theorem codeOf_thinned : codeOf ns = codeOf ms := by
  induction length : ms.length using Nat.strong_induction_on generalizing ms ns with
  | _ n ih =>
    subst length
    cases thin with
    | nil => rfl
    | @keep m ms ns plain later =>
      by_cases comment : m.char = '-' ∧ joinedBy '-' ms = true
      · have short := length_tail_lt_of_joinedBy comment.2
        have next := length_nextLine_le ms.tail
        have rest := ih _ (by rw [length_cons]; omega) (later.tail comment.2).nextLine rfl
        rw [codeOf, codeOf, dif_pos comment, dif_pos ⟨comment.1, later.joinedBy_eq.symm.trans comment.2⟩, rest]
      · have step := ih _ (Nat.lt_succ_self _) later rfl
        have dash : m.char = '-' → joinedBy '-' ms = false := fun same => by simpa [same] using comment
        by_cases block : m.char = '/' ∧ joinedBy '*' ms = true
        · have short := length_tail_lt_of_joinedBy block.2
          have ends := (later.tail block.2).blockEnd
          rw [codeOf, codeOf, dif_neg comment, dif_pos block, dif_neg (by simp [block.1]),
            dif_pos ⟨block.1, later.joinedBy_eq.symm.trans block.2⟩]
          cases closed : blockEnd? ms.tail with
          | none =>
            rw [closed] at ends
            cases closed' : blockEnd? ns.tail with
            | none => simp only [step]
            | some after => rw [closed'] at ends; cases ends
          | some after =>
            have shorter := length_blockEnd? closed
            rw [closed] at ends
            cases closed' : blockEnd? ns.tail with
            | none => rw [closed'] at ends; cases ends
            | some after' =>
              rw [closed'] at ends
              cases ends with
              | some thin => exact ih _ (by rw [length_loosen, length_cons]; omega) thin.loosen rfl
        · have slash : m.char = '/' → joinedBy '*' ms = false := fun same => by simpa [same] using block
          rw [codeOf_step (by rwa [← later.joinedBy_eq]) (fun same joined => ?_) fun quote => absurd quote plain,
            codeOf_step dash (fun same joined => ?_) fun quote => absurd quote plain, step]
          · simp [slash same] at joined
          · simp [← later.joinedBy_eq, slash same] at joined
    | @drop opens ms ns ends later =>
      have rest := ih _ (by simp [bare]; omega) later rfl
      have code : codeOf (bare ++ ms) = codeOf ms := by
        rw [bare, cons_append, singleton_append, codeOf_comment rfl rfl rfl,
          nextLine_of_opens fun m head => (ends m head).1]
      rw [codeOf_step (by simp) (by simp) (by simp), codeOf_step (by simp) (by simp) (by simp), code, rest]

end

end Thinned

section Rows

variable {head head' gap line new : List Char}

theorem quoteFree_marks (free : '"' ∉ line) : ∀ m ∈ marks feeds line, m.char ≠ '"' := by
  intro m member quote
  have inside : m.char ∈ solids line := chars_marksFrom line ▸ mem_map_of_mem member
  exact free (quote ▸ (mem_solids.mp inside).1)

/-- A row that is laid out anew loses an empty comment. -/
def Bared (line new : List Char) : Prop :=
  ∃ head gap trail, InLine gap ∧ (∀ c ∈ trail, isBlank c = true) ∧ line = head ++ ';' :: (gap ++ '-' :: '-' :: trail) ∧
    marks feeds new = marks feeds (head ++ [';'])

theorem Bared.trail {trail : List Char} (bared : Bared line new) (blank : ∀ c ∈ trail, isBlank c = true) :
    Bared (line ++ trail) new := by
  obtain ⟨head, gap, own, inside, ownBlank, rfl, same⟩ := bared
  exact ⟨head, gap, own ++ trail, inside, forall_mem_append.mpr ⟨ownBlank, blank⟩, by simp, same⟩

theorem Bared.thinned (bared : Bared line new) (free : '"' ∉ line) : Thinned (marks feeds line) (marks feeds new) := by
  obtain ⟨head, gap, trail, inside, blank, rfl, same⟩ := bared
  have comment : marksFrom feeds ';' [] (gap ++ '-' :: '-' :: trail) = bare := by
    rw [marksFrom_gap inside.blank, append_nil, marksFrom_pair (by decide) (by decide), marksFrom_of_blank blank,
      not_joins_left (by decide), Bool.and_false]
    simp [bare, feeds, inside.not_feed, show joins '-' '-' = true by decide]
  have semicolon (cs : List Char) : marks feeds (head ++ ';' :: cs) =
      marks feeds head ++ ⟨';', false, feeds (reach '\n' ['\n'] head).1 (reach '\n' ['\n'] head).2 ';'⟩ ::
        marksFrom feeds ';' [] cs := by
    rw [marks, marksFrom_append, marksFrom_solid (by decide), not_joins_right (by decide), Bool.and_false]
    rfl
  rw [same, semicolon, semicolon, comment]
  refine .behind (fun m member => quoteFree_marks (fun quote => free ?_) m member) (.drop (by simp) .nil)
  exact mem_append_left _ quote

theorem marks_intercalate (ls : List (List Char)) : marks feeds (intercalate ['\n'] ls) = ls.flatMap (marks feeds) := by
  induction ls with
  | nil => rfl
  | cons l ls ih =>
    cases ls with
    | nil => simp [intercalate]
    | cons l' ls =>
      rw [intercalate_cons_cons, flatMap_cons, ← ih, marks, append_assoc, marksFrom_append,
        singleton_append, marksFrom_blank (by decide)]
      exact congrArg _ (marksFrom_of_feed feeds_of_mem mem_cons_self _)

def written : Option (List Char) → List Char
  | none => []
  | some body => '-' :: '-' :: body

/-- A comment behind a row as it is laid out; an empty comment is left out. -/
def laid (body : List Char) : List Char :=
  if body = [] then [] else ' ' :: '-' :: '-' :: dropBlanksRight body

/-- A row that keeps its marks up to its semicolon keeps those of its comment, unless the comment is empty. -/
theorem marks_row {comment : Option (List Char)} (inside : InLine gap)
    (same : ∀ cs, marks feeds (head' ++ ';' :: cs) = marks feeds (head ++ ';' :: cs)) :
    (comment ≠ some [] → marks feeds (head' ++ ';' :: laid (comment.getD [])) =
      marks feeds (head ++ ';' :: (gap ++ written comment))) ∧
    (comment = some [] →
      Bared (head ++ ';' :: (gap ++ written comment)) (head' ++ ';' :: laid (comment.getD []))) := by
  constructor
  · intro visible
    rw [same]
    refine marksFrom_keep (by decide) head ?_
    cases comment with
    | none => rw [written, append_nil, marksFrom_of_blank inside.blank]; rfl
    | some body =>
      have nonempty : body ≠ [] := fun empty => visible (congrArg some empty)
      obtain ⟨trail, whole, blank⟩ := exists_dropBlanksRight body
      have comment : gap ++ written (some body) = (gap ++ '-' :: '-' :: dropBlanksRight body) ++ trail := by
        simp [written, ← whole]
      rw [Option.getD_some, laid, if_neg nonempty, comment, marksFrom_trail blank]
      exact Alike.spaced (by decide) inLine_space inside fun _ _ _ => rfl
  · rintro rfl
    exact ⟨head, gap, [], inside, fun _ none => absurd none not_mem_nil, rfl, same []⟩

theorem thinned_lines {ls : List (List Char)} {f : List Char → List Char}
    (kept : ∀ l ∈ ls, Thinned (marks feeds l) (marks feeds (f l))) :
    Thinned (ls.flatMap (marks feeds)) ((ls.map f).flatMap (marks feeds)) := by
  induction ls with
  | nil => exact .nil
  | cons l ls ih =>
    rw [forall_mem_cons] at kept
    rw [map_cons, flatMap_cons, flatMap_cons]
    refine kept.1.append (ih kept.2) fun m first => ?_
    rw [← marks_unlines] at first
    exact ⟨opens_of_feed feeds_of_mem mem_cons_self _ m first, not_joined_of_gap (cons_ne_nil _ _) _ m first⟩

end Rows

end VhdlWorkbench.Source

namespace VhdlWorkbench.Layout

open Text Source Pattern Design List

section Parts

variable {text : Array Char} {o : Options} {t t' : Thread} {m : Match} {name : String} {slot : Nat}

def place? (m : Match) (name : String) : Option (Nat × Nat) :=
  (m.names.lookup name).bind m.span?

theorem span_of_capture {group : Option String} {body : Node}
    (reached : Reaches text (.capture slot group body) o t t') (room : slot < t.spans.size) :
    t'.spans[slot]? = some (some (t.pos, t'.pos)) := by
  obtain ⟨u, inner, rfl⟩ := reached
  have size := inner.spans_size
  simp [size, room]

theorem span_kept {p : Node} {own : List Nat} {spans : Array (Option (Nat × Nat))}
    (reached : Reaches text p o t t') (captures : p.captures = own) (other : slot ∉ own) (same : t.spans = spans) :
    t'.spans[slot]? = spans[slot]? := by
  subst captures same
  exact reached.span_eq other

theorem place?_eq (listed : m.names.lookup name = some (slot + 1)) : place? m name = (m.spans[slot + 1]?).join := by
  simp [place?, listed, Match.span?]

theorem named?_eq (listed : m.names.lookup name = some (slot + 1)) : m.named? name =
    (m.spans[slot + 1]?).join.map fun span => String.ofList (segment m.source span.1 span.2) := by
  simp [Match.named?, listed, Match.group?, Match.span?]

theorem reaches_comment {group : Option String} {u : Thread} [Folds o]
    (dashes : Reaches text (.lit "--") o t u) (capture : Reaches text (.capture slot group (.many commentChar)) o u t')
    (room : slot < t.spans.size) :
    ∃ body, textFrom text t.pos = written (some body) ++ textFrom text t'.pos ∧
      (t'.spans[slot]?).join.map (fun span => segment text span.1 span.2) = some body := by
  obtain ⟨here, rfl⟩ := reaches_marks (by decide) dashes
  have behind : textFrom text _ = _ := textFrom_split capture.pos_le
  refine ⟨segment text (t.pos + "--".toList.length) t'.pos, here.trans ?_, ?_⟩
  · rw [behind]
    rfl
  · rw [span_of_capture capture room]
    rfl

/-- Blanks between the parts of a row. -/
abbrev Spaces := { cs : List Char // InLine cs }

theorem reaches_spacing (reached : Reaches text spacing oneRow t t') :
    ∃ s : Spaces, textFrom text t.pos = s.1 ++ textFrom text t'.pos ∧ t' = { t with pos := t.pos + s.1.length } := by
  obtain ⟨seg, here, taken, -, -, moved⟩ := reaches_run reached
  refine ⟨⟨seg, inLine_of_spaces fun c member => ?_⟩, here, moved⟩
  have blank : memberAcceptsLetter oneRow ' ' c = true ↔ c = ' ' := charAccepts_mark (o := oneRow) (by decide)
  have tab : memberAcceptsLetter oneRow '\t' c = true ↔ c = '\t' := charAccepts_mark (o := oneRow) (by decide)
  have accepted : (memberAcceptsLetter oneRow ' ' c || (memberAcceptsLetter oneRow '\t' c || false)) = true := by
    simpa [space, Single.accepts, SetItem.accepts, oneRow] using taken c member
  rw [Bool.or_false, Bool.or_eq_true, blank, tab] at accepted
  simpa [isSpace] using accepted

theorem exists_last (name : Identifier) : ∃ front c, name.chars = front ++ [c] ∧ isBlank c = false := by
  rcases eq_nil_or_concat name.chars with none | ⟨front, c, form⟩
  · exact absurd none name.nonempty
  · rw [concat_eq_append] at form
    exact ⟨front, c, form, name.solid c (by simp [form])⟩

theorem isBlank_of_mem_tabs (level : Int) : ∀ c ∈ (tabs level).toList, isBlank c = true := by
  intro c member
  rw [toList_tabs] at member
  rw [eq_of_mem_replicate member]
  decide

theorem textFrom_of_stop {pos : Nat} {o : Options} (single : '\n' ∉ textFrom text pos)
    (holds : Anchor.holds text o .lineEnd pos = true) : textFrom text pos = [] := by
  have ends := feed_of_lineEnd holds
  cases rest : textFrom text pos with
  | nil => rfl
  | cons c cs =>
    rw [rest] at ends single
    exact absurd (ends c rfl ▸ mem_cons_self) single

/-- What is written behind the columns of a row: its comment, unless it is empty. -/
def commentColumn (m : Match) : String :=
  if (m.named "comment").isEmpty then "" else " --" ++ trimRight (m.named "comment")

section

variable {comment : Option (List Char)} (read : m.named? "comment" = comment.map String.ofList)
include read

theorem toList_commentColumn : (commentColumn m).toList = laid (comment.getD []) := by
  have column : m.named "comment" = String.ofList (comment.getD []) := by
    rw [Match.named, read]
    cases comment <;> rfl
  rw [commentColumn, column]
  cases body : comment.getD [] with
  | nil => rfl
  | cons c cs =>
    have some : (String.ofList (c :: cs)).isEmpty = false := by simp
    rw [some, if_neg Bool.false_ne_true, laid, if_neg (cons_ne_nil c cs)]
    simp [trimRight]

/-- A row keeps its marks if its columns do, or it loses an empty comment. -/
theorem marks_columns {columns : String} {head gap : List Char} (inside : InLine gap)
    (same : ∀ cs, marks feeds (columns.toList ++ ';' :: cs) = marks feeds (head ++ ';' :: cs)) :
    marks feeds (columns ++ ";" ++ commentColumn m).toList = marks feeds (head ++ ';' :: (gap ++ written comment)) ∨
      m.named? "comment" = some "" ∧
        Bared (head ++ ';' :: (gap ++ written comment)) (columns ++ ";" ++ commentColumn m).toList := by
  have row : (columns ++ ";" ++ commentColumn m).toList = columns.toList ++ ';' :: laid (comment.getD []) := by
    rw [String.toList_append, toList_commentColumn read]
    simp
  obtain ⟨kept, lost⟩ : (comment ≠ some [] → _) ∧ (comment = some [] → _) := marks_row inside same
  rw [row]
  by_cases empty : comment = some []
  · exact Or.inr ⟨by rw [read, empty]; rfl, lost empty⟩
  · exact Or.inl (kept empty)

end

end Parts

/-- A text keeps its code if each of its lines keeps its marks, or in a text without quotes at least all but an empty
comment, and no line comment exposes anything. -/
theorem codeOf_lines {cs : List Char} {f : List Char → List Char}
    (hidden : ∀ body ∈ lineComments cs, exposes false body = false)
    (kept : ∀ l ∈ linesFrom [] (trimmed cs), marks feeds (f l) = marks feeds l ∨ '"' ∉ cs ∧ Bared l (f l)) :
    codeOf (((linesFrom [] (trimmed cs)).map f).flatMap (marks feeds)) =
      (marks feeds (blankComments cs)).map Mark.shape := by
  have whole : (linesFrom [] (trimmed cs)).flatMap (marks feeds) = marks (lineBreaks false) cs := by
    rw [marks_lines, marks_trimmed lineBreaks_feed]
  rw [← codeOf_lineBreaks hidden, ← whole]
  by_cases quote : '"' ∈ cs
  · have same : ∀ l ∈ linesFrom [] (trimmed cs), marks feeds (f l) = marks feeds l :=
      fun l member => (kept l member).resolve_right fun bared => bared.1 quote
    rw [flatMap_map]
    exact congrArg codeOf (flatMap_congr same)
  · refine codeOf_thinned (thinned_lines fun l member => ?_)
    have free : '"' ∉ l := by
      intro inside
      have solid : '"' ∈ (linesFrom [] (trimmed cs)).flatMap solids :=
        mem_flatMap.mpr ⟨l, member, mem_solids.mpr ⟨inside, by decide⟩⟩
      rw [solids_linesFrom, reverse_nil, nil_append, solids_trimmed] at solid
      exact quote (mem_solids.mp solid).1
    rcases kept l member with same | bared
    · rw [same]
      exact .refl (quoteFree_marks free)
    · exact bared.2.thinned free

end VhdlWorkbench.Layout

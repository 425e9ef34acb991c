import VhdlWorkbench.Proofs.BrokenLines
import VhdlWorkbench.Proofs.Marks

/-!
Lines that begin inside a comment, where a text is cut at its line ends and a map behind its commas.
-/

namespace VhdlWorkbench.Layout

open Text Source List

/-- Where a text that is laid out gets its lines; in a map also behind the commas before its words. -/
def lineBreaks (commas : Bool) : Breaks := fun last gap c =>
  gap.any isLineEnd || commas && last == ',' && gap.all isSpace && isWord c

def opensCode (cs : List Char) : Bool :=
  match dropBlanks cs with
  | [] => false
  | '-' :: '-' :: _ => false
  | _ => true

/-- A line begins inside the comment with something that is no line comment. -/
def exposes (commas : Bool) : List Char → Bool
  | [] => false
  | c :: cs => isLineEnd c && opensCode cs || commas && c == ',' && opensWord cs || exposes commas cs

variable {commas : Bool} {last c : Char} {gap cs : List Char}

theorem lineBreaks_feed (last : Char) (gap : List Char) (c : Char) (mem : '\n' ∈ gap) :
    lineBreaks commas last gap c = true := by
  have ends : gap.any isLineEnd = true := any_eq_true.mpr ⟨'\n', mem, by decide⟩
  rw [lineBreaks, ends, Bool.true_or]

theorem opensCode_blank (blank : isBlank c = true) (cs : List Char) : opensCode (c :: cs) = opensCode cs := by
  rw [opensCode, opensCode, dropBlanks, dropWhile_cons_of_pos blank, dropBlanks]

theorem opensCode_solid (solid : isBlank c = false) (cs : List Char) :
    opensCode (c :: cs) = false ↔ c = '-' ∧ ∃ rest, cs = '-' :: rest := by
  rw [opensCode, dropBlanks, dropWhile_cons_of_neg (by simp [solid])]
  split
  · next none => exact absurd none (cons_ne_nil c cs)
  · next rest form =>
    obtain ⟨rfl, rfl⟩ := cons.inj form
    exact ⟨fun _ => ⟨rfl, rest, rfl⟩, fun _ => rfl⟩
  · next other =>
    refine ⟨fun shows => absurd shows (by simp), ?_⟩
    rintro ⟨rfl, rest, rfl⟩
    exact absurd rfl (other rest)

/-- The lines that begin among the marks begin a comment exactly if no line exposes what stands there. -/
theorem hidden_iff : Hidden (marksFrom (lineBreaks commas) last gap cs) ↔
    exposes commas cs = false ∧ (gap.any isLineEnd = true → opensCode cs = false) ∧
      ((commas && last == ',' && gap.all isSpace) = true → opensWord cs = false) := by
  induction cs generalizing last gap with
  | nil => simp [Hidden, exposes, opensCode, opensWord, dropBlanks]
  | cons c cs ih =>
    cases blank : isBlank c with
    | true =>
      have comma : (c == ',') = false := by
        rw [beq_eq_false_iff_ne]
        rintro rfl
        exact absurd blank (by decide)
      rw [marksFrom_blank blank, ih, exposes, comma, opensCode_blank blank]
      cases space : isSpace c with
      | true =>
        rw [opensWord_space space, any_cons, all_cons, space]
        simp only [Bool.or_eq_true, Bool.or_eq_false_iff, Bool.and_eq_false_imp, Bool.true_and, Bool.and_false,
          Bool.false_and, Bool.or_false]
        tauto
      | false =>
        have other : isWord c = false := isWord_of_isBlank blank
        rw [opensWord_solid space, any_cons, all_cons, space, other]
        simp only [Bool.or_eq_true, Bool.or_eq_false_iff, Bool.and_eq_false_imp, Bool.false_and, Bool.and_false,
          Bool.or_false, Bool.false_eq_true]
        tauto
    | false =>
      have space : isSpace c = false := by
        cases space : isSpace c with
        | false => rfl
        | true => simp [isBlank_of_isSpace space] at blank
      have ends : isLineEnd c = false := by
        cases ends : isLineEnd c with
        | false => rfl
        | true => simp [isBlank_of_isLineEnd ends] at blank
      have starts : (c = '-' ∧ joinedBy '-' (marksFrom (lineBreaks commas) c [] cs) = true) ↔ opensCode (c :: cs) = false := by
        rw [opensCode_solid blank]
        refine and_congr_right fun dash => ?_
        subst dash
        exact joinedBy_marksFrom (by decide) (by decide) cs
      have word : opensCode (c :: cs) = false → isWord c = false := by
        intro hides
        rw [((opensCode_solid blank cs).mp hides).1]
        decide
      rw [marksFrom_solid blank, Hidden, ih, exposes, starts, ends, opensWord_solid space, lineBreaks]
      simp only [Bool.or_eq_true, Bool.or_eq_false_iff, Bool.and_eq_false_imp, Bool.false_and, Bool.false_eq_true,
        any_nil, all_nil, Bool.and_true, false_imp_iff, true_and]
      constructor
      · rintro ⟨here, later, commaWord⟩
        refine ⟨⟨commaWord, later⟩, fun ended => here (Or.inl ended), fun behind => ?_⟩
        cases wordy : isWord c with
        | false => rfl
        | true => exact wordy.symm.trans (word (here (Or.inr (by simp [behind, wordy]))))
      · rintro ⟨⟨commaWord, later⟩, ended, behind⟩
        refine ⟨?_, later, commaWord⟩
        rintro (ends | broken)
        · exact ended ends
        · rw [Bool.and_eq_true] at broken
          exact absurd broken.2 (by simp [behind broken.1])

/-- A comment is hidden on all its lines exactly if it exposes nothing. -/
theorem hidden_comment_iff {body : List Char} :
    Hidden (marksFrom (lineBreaks commas) '-' [] body) ↔ exposes commas body = false := by
  rw [hidden_iff]
  simp

theorem marksFrom_of_lineEnd (ends : gap.any isLineEnd = true) (cs : List Char) :
    marksFrom (lineBreaks commas) last gap cs = marks (lineBreaks commas) cs := by
  have some : gap ≠ [] := by
    rintro rfl
    exact absurd ends (by simp)
  refine marksFrom_behind_gap some (cons_ne_nil _ _) (fun more c => ?_) cs
  rw [lineBreaks_feed _ _ c (mem_append_right more mem_cons_self), lineBreaks, any_append, ends,
    Bool.or_true, Bool.true_or]

theorem feeds_eq_lineBreaks (plain : ∀ d ∈ gap, isLineEnd d = false ∨ d = '\n') :
    feeds last gap c = lineBreaks false last gap c := by
  have same : gap.any isLineEnd = gap.contains '\n' := by
    rw [Bool.eq_iff_iff, any_eq_true, contains_iff_mem]
    constructor
    · rintro ⟨d, member, ends⟩
      rcases plain d member with other | rfl
      · simp [ends] at other
      · exact member
    · intro member
      exact ⟨'\n', member, by decide⟩
  rw [feeds, lineBreaks, same]
  simp

theorem exists_pad (width : Nat) (cs : List Char) : ∃ pad, InLine pad ∧ padTo width cs = cs ++ pad :=
  ⟨replicate (width - cs.length) ' ', inLine_replicate, rfl⟩

theorem inLine_of_spaces (spaces : ∀ c ∈ cs, isSpace c = true) : InLine cs := by
  intro c member
  refine ⟨isBlank_of_isSpace (spaces c member), ?_⟩
  rintro rfl
  exact absurd (spaces '\n' member) (by decide)

theorem marks_linesFrom {line : List Char} (single : ∀ d ∈ line, isLineEnd d = false) (cs : List Char) :
    (linesFrom line cs).flatMap (marks feeds) = marks feeds line.reverse ++
      marksFrom (lineBreaks false) (reach '\n' ['\n'] line.reverse).1 (reach '\n' ['\n'] line.reverse).2 cs := by
  fun_induction linesFrom line cs with
  | case1 line empty =>
    rw [isEmpty_iff.mp empty]
    rfl
  | case2 line nonempty => simp
  | case3 line rest ih =>
    rw [flatMap_cons, ih (by simp), marksFrom_blank (by decide), marksFrom_blank (by decide)]
    exact congrArg _ (marksFrom_of_lineEnd (by simp [show isLineEnd '\n' = true by decide]) rest).symm
  | case4 line c rest unpaired ends ih =>
    rw [flatMap_cons, ih (by simp), marksFrom_blank (isBlank_of_isLineEnd ends)]
    exact congrArg _ (marksFrom_of_lineEnd (by simp [ends]) rest).symm
  | case5 line c rest unpaired goes ih =>
    have single' : ∀ d ∈ c :: line, isLineEnd d = false := forall_mem_cons.mpr ⟨by simpa using goes, single⟩
    have alike : marksFrom feeds (reach '\n' ['\n'] line.reverse).1 (reach '\n' ['\n'] line.reverse).2 [c] =
        marksFrom (lineBreaks false) (reach '\n' ['\n'] line.reverse).1 (reach '\n' ['\n'] line.reverse).2 [c] := by
      rw [marksFrom, marksFrom, feeds_eq_lineBreaks fun d member => ?_]
      · rfl
      · rcases mem_reach _ member with inside | feed
        · exact Or.inl (single d (mem_reverse.mp inside))
        · exact Or.inr (mem_singleton.mp feed)
    rw [ih single', reverse_cons, marks, marksFrom_append, append_assoc, alike, reach_append, ← marksFrom_append,
      singleton_append]
    rfl

theorem marksFrom_breakCommas {skip : Bool} {gap' : List Char}
    (follows : skip = false ∧ gap' = gap ∧ ((last == ',' && gap.all isSpace) = true → opensWord cs = false) ∨
      skip = true ∧ last = ',' ∧ gap = ['\n'] ∧ gap'.all isSpace = true ∧ opensWord cs = true) :
    marksFrom (lineBreaks false) last gap (breakCommas skip cs) = marksFrom (lineBreaks true) last gap' cs := by
  induction cs generalizing last gap gap' skip with
  | nil => rfl
  | cons c cs ih =>
    rcases follows with ⟨rfl, rfl, goes⟩ | ⟨rfl, rfl, rfl, spaces, opens⟩
    · rw [breakCommas, if_neg (by simp)]
      split
      · next breaks =>
        rw [Bool.and_eq_true, beq_iff_eq] at breaks
        obtain ⟨rfl, opens⟩ := breaks
        have later := ih (Or.inr ⟨rfl, rfl, rfl, (rfl : [].all isSpace = true), opens⟩)
        rw [marksFrom_solid (by decide), marksFrom_blank (by decide), later, marksFrom_solid (by decide)]
        simp [lineBreaks, show isWord ',' = false by decide]
      · next goesOn =>
        cases blank : isBlank c with
        | true =>
          rw [marksFrom_blank blank, marksFrom_blank blank]
          refine ih (Or.inl ⟨rfl, rfl, fun behind => ?_⟩)
          rw [all_cons, Bool.and_left_comm, Bool.and_eq_true] at behind
          rw [← opensWord_space behind.1]
          exact goes behind.2
        | false =>
          have space : isSpace c = false := by
            cases space : isSpace c with
            | false => rfl
            | true => simp [isBlank_of_isSpace space] at blank
          have same : lineBreaks false last gap' c = lineBreaks true last gap' c := by
            rw [opensWord_solid space] at goes
            rw [lineBreaks, lineBreaks]
            cases behind : last == ',' && gap'.all isSpace with
            | false => simp [behind]
            | true => simp [behind, goes behind]
          rw [marksFrom_solid blank, marksFrom_solid blank, same, ih (Or.inl ⟨rfl, rfl, fun comma => ?_⟩)]
          simpa [show c = ',' by simpa using comma] using goesOn
    · cases space : isSpace c with
      | true =>
        rw [opensWord_space space] at opens
        rw [breakCommas, if_pos (by simp [space]), marksFrom_blank (isBlank_of_isSpace space)]
        exact ih (Or.inr ⟨rfl, rfl, rfl, by simp [space, spaces], opens⟩)
      | false =>
        rw [opensWord_solid space] at opens
        have blank : isBlank c = false := isBlank_of_isWord opens
        have other : (c == ',') = false := by
          rw [beq_eq_false_iff_ne]
          rintro rfl
          exact absurd opens (by decide)
        rw [breakCommas, if_neg (by simp [space]), if_neg (by simp [other]), marksFrom_solid blank, marksFrom_solid blank,
          ih (Or.inl ⟨rfl, rfl, by simp [other]⟩)]
        have apart : joins ',' c = false := by simp [joins, show isWord ',' = false by decide]
        simp [lineBreaks, opens, spaces, apart, show isLineEnd '\n' = true by decide]

theorem marks_lines (cs : List Char) : (linesFrom [] cs).flatMap (marks feeds) = marks (lineBreaks false) cs :=
  marks_linesFrom (by simp) cs

theorem marks_broken (text : String) :
    (linesFrom [] (broken text)).flatMap (marks feeds) = marks (lineBreaks true) text.toList := by
  have cut : marks (lineBreaks false) (broken text) = marks (lineBreaks true) (trimmed text.toList) :=
    marksFrom_breakCommas (Or.inl ⟨rfl, rfl, by simp⟩)
  rw [marks_lines, cut, marks_trimmed lineBreaks_feed]

/-- The lines of the layout leave the code of a text as it is if no comment exposes anything. -/
theorem codeOf_lineBreaks (hidden : ∀ body ∈ lineComments cs, exposes commas body = false) :
    codeOf (marks (lineBreaks commas) cs) = (marks feeds (blankComments cs)).map Mark.shape :=
  codeOf_marksFrom lineBreaks_feed fun body member => hidden_comment_iff.mpr (hidden body member)

theorem chars_shapes (b : Breaks) (cs : List Char) : ((marks b cs).map Mark.shape).map Prod.fst = solids cs := by
  rw [map_map]
  exact chars_marksFrom cs

section Simple

/-- No string literal and no block comment is opened. -/
structure IsSimple (cs : List Char) : Prop where
  quoteFree : '"' ∉ cs
  blockFree : ¬['/', '*'] <:+: cs

/-- No mark opens a string literal or a block comment, and joined marks stand on one line. -/
def Simple : List Mark → Prop
  | [] => True
  | m :: ms => m.char ≠ '"' ∧ (m.char = '/' → joinedBy '*' ms = false) ∧ (m.joined = true → m.opens = false) ∧ Simple ms

variable {m : Mark} {ms hs rs : List Mark}

theorem IsSimple.of_suffix {ds : List Char} (simple : IsSimple cs) (suffix : ds <:+ cs) : IsSimple ds :=
  ⟨fun member => simple.quoteFree (suffix.subset member), fun inside => simple.blockFree (inside.trans suffix.isInfix)⟩

theorem IsSimple.tail (simple : IsSimple (c :: cs)) : IsSimple cs :=
  simple.of_suffix (suffix_cons c cs)

theorem simple_marksFrom (simple : IsSimple cs) : Simple (marksFrom (lineBreaks commas) last gap cs) := by
  induction cs generalizing last gap with
  | nil => trivial
  | cons c cs ih =>
    cases blank : isBlank c with
    | true =>
      rw [marksFrom_blank blank]
      exact ih simple.tail
    | false =>
      rw [marksFrom_solid blank]
      refine ⟨?_, ?_, ?_, ih simple.tail⟩
      · rintro rfl
        exact simple.quoteFree mem_cons_self
      · rintro rfl
        rw [Bool.eq_false_iff, ne_eq, joinedBy_marksFrom (by decide) (by decide)]
        rintro ⟨rest, rfl⟩
        exact simple.blockFree ⟨[], rest, rfl⟩
      · intro joined
        dsimp only at joined ⊢
        rw [Bool.and_eq_true, List.isEmpty_iff] at joined
        have comma : (last == ',') = false := by
          rw [beq_eq_false_iff_ne]
          rintro rfl
          rw [not_joins_left (by decide)] at joined
          exact Bool.noConfusion joined.2
        simp [lineBreaks, joined.1, comma]

theorem codeOf_simple (simple : Simple (m :: ms)) (comment : m.char = '-' → joinedBy '-' ms = false) :
    codeOf (m :: ms) = m.shape :: codeOf ms := by
  obtain ⟨quote, block, -, -⟩ := simple
  refine codeOf_step comment (fun slash joined => ?_) fun same => absurd same quote
  rw [block slash] at joined
  exact Bool.noConfusion joined

theorem exists_dashes (fresh : ∀ m ∈ rs.head?, m.opens = true ∧ m.joined = false)
    (joined : joinedBy '-' (hs ++ rs) = true) : ∃ n hs', hs = n :: hs' ∧ n.char = '-' ∧ n.joined = true := by
  cases hs with
  | nil =>
    cases rs with
    | nil => simp [joinedBy] at joined
    | cons r rs => simp [joinedBy, (fresh r rfl).2] at joined
  | cons n hs =>
    rw [cons_append, joinedBy, Bool.and_eq_true, beq_iff_eq] at joined
    exact ⟨n, hs, rfl, joined.2, joined.1⟩

/-- Marks that stand before a line only add to its code, and what they expose of a comment is added. -/
theorem codeOf_grows (hs : List Mark) (simple : Simple (hs ++ rs))
    (fresh : ∀ m ∈ rs.head?, m.opens = true ∧ m.joined = false) :
    (codeOf rs).length ≤ (codeOf (hs ++ rs)).length ∧
      (codeOf rs).length ≤ (codeOf (nextLine (hs ++ rs))).length ∧
        (¬Hidden hs → (codeOf rs).length < (codeOf (nextLine (hs ++ rs))).length) := by
  match hs with
  | [] =>
    rw [nil_append, nextLine_of_opens fun m head => (fresh m head).1]
    exact ⟨Nat.le_refl _, Nat.le_refl _, fun shown => absurd trivial shown⟩
  | m :: hs =>
    obtain ⟨plain, skipped, shown⟩ := codeOf_grows hs simple.2.2.2 fresh
    by_cases comment : m.char = '-' ∧ joinedBy '-' (hs ++ rs) = true
    · obtain ⟨n, hs', rfl, dash, joined⟩ := exists_dashes fresh comment.2
      obtain ⟨-, skipped', shown'⟩ := codeOf_grows hs' simple.2.2.2.2.2.2 fresh
      have start : codeOf (m :: n :: hs' ++ rs) = codeOf (nextLine (hs' ++ rs)) := codeOf_comment comment.1 dash joined
      have closed : n.opens = false := simple.2.2.2.2.2.1 joined
      rw [start]
      refine ⟨skipped', ?_⟩
      cases opens : m.opens with
      | true =>
        have stay : nextLine (m :: n :: hs' ++ rs) = m :: n :: hs' ++ rs := nextLine_of_opens (by simpa using opens)
        rw [stay, start]
        refine ⟨skipped', fun exposed => shown' fun hidden => exposed ⟨fun _ => ⟨comment.1, ?_⟩, ?_, hidden⟩⟩
        · rw [joinedBy, joined, dash]
          rfl
        · exact fun opens => absurd opens (by simp [closed])
      | false =>
        have skip : nextLine (m :: n :: hs' ++ rs) = nextLine (n :: hs' ++ rs) :=
          dropWhile_cons_of_pos (by simp [opens])
        rw [skip]
        exact ⟨skipped, fun exposed => shown fun hidden => exposed ⟨fun first => absurd first (by simp [opens]), hidden⟩⟩
    · have step : codeOf (m :: hs ++ rs) = m.shape :: codeOf (hs ++ rs) :=
        codeOf_simple simple fun dash => by simpa [dash] using comment
      rw [step, length_cons]
      refine ⟨Nat.le_succ_of_le plain, ?_⟩
      cases opens : m.opens with
      | true =>
        have stay : nextLine (m :: hs ++ rs) = m :: hs ++ rs := nextLine_of_opens (by simpa using opens)
        rw [stay, step, length_cons]
        exact ⟨Nat.le_succ_of_le plain, fun _ => Nat.lt_succ_of_le plain⟩
      | false =>
        have skip : nextLine (m :: hs ++ rs) = nextLine (hs ++ rs) := dropWhile_cons_of_pos (by simp [opens])
        rw [skip]
        exact ⟨skipped, fun exposed => shown fun hidden => exposed ⟨fun first => absurd first (by simp [opens]), hidden⟩⟩
termination_by hs.length

/-- In a simple text the lines of the layout only add to the code, and what a comment exposes is added. -/
theorem length_code (simple : IsSimple cs) :
    (solids (blankComments cs)).length ≤ (codeOf (marksFrom (lineBreaks commas) last gap cs)).length ∧
      ((∃ body ∈ lineComments cs, exposes commas body = true) →
        (solids (blankComments cs)).length < (codeOf (marksFrom (lineBreaks commas) last gap cs)).length) := by
  fun_induction blankComments cs generalizing last gap with
  | case1 => simp [lineComments, solids]
  | case2 rest ih =>
    obtain ⟨body, body_eq⟩ : ∃ body, body = rest.takeWhile (· != '\n') := ⟨_, rfl⟩
    obtain ⟨tail, tail_eq⟩ : ∃ tail, tail = rest.dropWhile (· != '\n') := ⟨_, rfl⟩
    have whole : rest = body ++ tail := by rw [body_eq, tail_eq, takeWhile_append_dropWhile]
    have ends : tail = [] ∨ ∃ cs, tail = '\n' :: cs := by
      have stops := head?_dropWhile_not (· != '\n') rest
      rw [← tail_eq] at stops
      cases tail with
      | nil => exact Or.inl rfl
      | cons c cs => exact Or.inr ⟨cs, by simpa using stops⟩
    have short : IsSimple rest := simple.tail.tail
    rw [← tail_eq] at ih ⊢
    have below := @ih (reach '-' [] body).1 (reach '-' [] body).2
      (short.of_suffix (whole ▸ suffix_append body tail))
    have fresh : ∀ m ∈ (marksFrom (lineBreaks commas) (reach '-' [] body).1 (reach '-' [] body).2 tail).head?,
        m.opens = true ∧ m.joined = false := by
      rcases ends with rfl | ⟨cs, rfl⟩
      · simp
      · rw [marksFrom_blank (by decide)]
        intro m head
        exact ⟨opens_of_feed lineBreaks_feed mem_cons_self cs m head,
          not_joined_of_gap (cons_ne_nil _ _) cs m head⟩
    have marks_eq : Simple (marksFrom (lineBreaks commas) '-' [] rest) := simple_marksFrom short
    rw [whole, marksFrom_append] at marks_eq
    obtain ⟨-, skipped, shown⟩ := codeOf_grows _ marks_eq fresh
    have same : solids (' ' :: blankComments tail) = solids (blankComments tail) := rfl
    rw [same, marksFrom_pair (by decide) (by decide), codeOf_comment rfl rfl rfl, lineComments, ← body_eq, ← tail_eq, whole,
      marksFrom_append]
    refine ⟨Nat.le_trans below.1 skipped, ?_⟩
    rintro ⟨comment, member, exposed⟩
    rcases mem_cons.mp member with rfl | later
    · have opened : ¬Hidden (marksFrom (lineBreaks commas) '-' [] comment) := by
        rw [hidden_comment_iff, exposed]
        exact Bool.noConfusion
      exact Nat.lt_of_le_of_lt below.1 (shown opened)
    · exact Nat.lt_of_lt_of_le (below.2 ⟨comment, later, exposed⟩) skipped
  | case3 rest body after found ih => exact absurd ⟨[], rest, rfl⟩ simple.blockFree
  | case4 rest none ih => exact absurd ⟨[], rest, rfl⟩ simple.blockFree
  | case5 rest body after found ih => exact absurd mem_cons_self simple.quoteFree
  | case6 rest none ih => exact absurd mem_cons_self simple.quoteFree
  | case7 c rest dash slash quote ih =>
    have later : lineComments (c :: rest) = lineComments rest := by
      rw [lineComments]
      exacts [dash, slash, quote]
    rw [later]
    cases blank : isBlank c with
    | true =>
      have same : solids (c :: blankComments rest) = solids (blankComments rest) := by simp [solids, blank]
      rw [marksFrom_blank blank, same]
      exact ih simple.tail
    | false =>
      have same : solids (c :: blankComments rest) = c :: solids (blankComments rest) := by simp [solids, blank]
      have marks_eq : Simple (marksFrom (lineBreaks commas) last gap (c :: rest)) := simple_marksFrom simple
      rw [marksFrom_solid blank] at marks_eq ⊢
      rw [same, codeOf_simple marks_eq, length_cons, length_cons]
      · exact ⟨Nat.succ_le_succ (ih simple.tail).1, fun shown => Nat.succ_lt_succ ((ih simple.tail).2 shown)⟩
      · rintro rfl
        rw [Bool.eq_false_iff, ne_eq, joinedBy_marksFrom (by decide) (by decide)]
        rintro ⟨more, same⟩
        exact dash more rfl same

/-- In a simple text a comment that exposes something changes the code. -/
theorem codeOf_lineBreaks_iff (simple : IsSimple cs) :
    (codeOf (marks (lineBreaks commas) cs)).map Prod.fst = solids (blankComments cs) ↔
      ∀ body ∈ lineComments cs, exposes commas body = false := by
  constructor
  · intro same body member
    by_contra exposed
    have more := (@length_code commas '\n' ['\n'] cs simple).2 ⟨body, member, by simpa using exposed⟩
    rw [← same, length_map, marks] at more
    exact Nat.lt_irrefl _ more
  · intro hidden
    rw [codeOf_lineBreaks hidden, chars_shapes]

end Simple

end VhdlWorkbench.Layout

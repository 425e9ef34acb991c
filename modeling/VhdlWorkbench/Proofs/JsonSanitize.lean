import VhdlWorkbench.Json.Lenient
import VhdlWorkbench.Proofs.JsonReading

/-!
Sanitising JSON texts: a sanitised text of a document is a strict text of it.
-/

namespace VhdlWorkbench.Text

open List Text

theorem literal?_plain {quote c : Char} (other : c ≠ quote) (plain : c ≠ '\\') (rest : List Char) :
    literal? quote (c :: rest) = (literal? quote rest).map fun (body, rest) => (c :: body, rest) := by
  cases rest with
  | nil => simp [literal?, other, plain]
  | cons d rest => rw [literal?] <;> simp [other, plain]

theorem block?_closed {body : List Char} (inner : ¬['*', '/'] <:+: body) (rest : List Char) :
    block? (body ++ '*' :: '/' :: rest) = some (body ++ ['*', '/'], rest) := by
  induction body with
  | nil => simp [block?]
  | cons c body ih =>
    have later := ih fun infixed => inner (infix_cons infixed)
    rw [cons_append, block?]
    · rw [later]
      rfl
    · rintro after rfl slash
      cases body with
      | nil => simp at slash
      | cons d body =>
        obtain rfl : d = '/' := (cons.inj slash).1
        exact inner ⟨[], body, rfl⟩

end VhdlWorkbench.Text

namespace VhdlWorkbench.Json

open List Text

theorem hexDigit_inner (d : HexDigit) : d.char ≠ '"' ∧ d.char ≠ '\\' := by
  have all : ∀ value : Fin 16, ∀ upper : Bool,
      HexDigit.char ⟨value, upper⟩ ≠ '"' ∧ HexDigit.char ⟨value, upper⟩ ≠ '\\' := by
    decide
  exact all d.value d.upper

theorem literal?_codeUnit (u : CodeUnit) (rest : List Char) :
    literal? '"' (u.chars ++ rest) =
      (Text.literal? '"' rest).map fun (body, rest) => (u.chars ++ body, rest) := by
  have plain (d : HexDigit) := literal?_plain (hexDigit_inner d).1 (hexDigit_inner d).2
  simp only [CodeUnit.chars, cons_append, nil_append, plain, Option.map_map]
  rfl

theorem literal?_item (item : LiteralItem) (rest : List Char) :
    literal? '"' (item.chars ++ rest) =
      (Text.literal? '"' rest).map fun (body, rest) => (item.chars ++ body, rest) := by
  cases item with
  | plain c visible inner => exact literal?_plain inner.1 inner.2 rest
  | escape e => rfl
  | unit u whole =>
    simp only [LiteralItem.chars, cons_append, literal?, literal?_codeUnit, Option.map_map]
    rfl
  | pair high low first second =>
    simp only [LiteralItem.chars, cons_append, append_assoc, literal?, literal?_codeUnit,
      Option.map_map]
    congr 1

theorem literalPiece?_literal (s : Literal) (rest : List Char) :
    literalPiece? (s.chars ++ rest) = some (s.chars, rest) := by
  have body (items : List LiteralItem) :
      literal? '"' (items.flatMap LiteralItem.chars ++ '"' :: rest) =
        some (items.flatMap LiteralItem.chars ++ ['"'], rest) := by
    induction items with
    | nil => rfl
    | cons item items ih => simp [literal?_item, ih]
  simp only [Literal.chars, cons_append, append_assoc, nil_append, literalPiece?,
    Literal.body, body]
  rfl

theorem literalPiece?_plain {c : Char} (plain : beginsPiece c = false) (rest : List Char) :
    literalPiece? (c :: rest) = none := by
  simp only [beginsPiece, Bool.or_eq_false_iff, beq_eq_false_iff_ne] at plain
  simp [literalPiece?, plain]

theorem blockComment?_plain {c : Char} (plain : beginsPiece c = false) (rest : List Char) :
    blockComment? (c :: rest) = none := by
  rw [blockComment?]
  rintro _ ⟨⟩
  exact absurd plain (by decide)

section Equations

variable {cs body rest : List Char} {k : Bool}

theorem removeComments_block (block : blockComment? cs = some (body, rest)) :
    removeComments k cs = residue k body ++ removeComments k rest := by
  rw [removeComments]
  split <;> simp_all

theorem removeComments_line (block : blockComment? cs = none)
    (line : afterLineComment? cs = some rest) :
    removeComments k cs = residue k (cs.takeWhile Text.isBlank) ++ removeComments k rest := by
  rw [removeComments]
  split
  · simp_all
  · split <;> simp_all

theorem removeComments_literal (block : blockComment? cs = none)
    (line : afterLineComment? cs = none) (piece : literalPiece? cs = some (body, rest)) :
    removeComments k cs = body ++ removeComments k rest := by
  rw [removeComments]
  split
  · simp_all
  · split
    · simp_all
    · split <;> simp_all

theorem removeComments_char {c : Char} (block : blockComment? (c :: rest) = none)
    (line : afterLineComment? (c :: rest) = none) (piece : literalPiece? (c :: rest) = none) :
    removeComments k (c :: rest) =
      c :: (rest.takeWhile (!beginsPiece ·) ++ removeComments k (rest.dropWhile (!beginsPiece ·))) := by
  rw [removeComments]
  split
  · simp_all
  · split
    · simp_all
    · split <;> simp_all

end Equations

def Lexeme.isGap : Lexeme → Bool
  | .blank _ _ => true
  | _ => false

/-- A lexeme without a character that may begin a comment or a literal. -/
def Lexeme.isRun : Lexeme → Bool
  | .blank _ _ => true
  | .token (.mark _) => true
  | .token (.scalar _) => true
  | _ => false

theorem isBlank_of_isLayout {c : Char} (layout : isLayout c = true) : Text.isBlank c = true := by
  simp only [isLayout, Bool.or_eq_true, beq_iff_eq] at layout
  rcases layout with ((rfl | rfl) | rfl) | rfl <;> decide

/-- A character of a scalar: none that begins a piece, and no comma. -/
def scalarChar (c : Char) : Bool :=
  !beginsPiece c && c != ','

theorem beginsPiece_of_scalarChar {c : Char} (plain : scalarChar c = true) : beginsPiece c = false := by
  simpa using (Bool.and_eq_true_iff.mp plain).1

theorem scalarChar_layout {c : Char} (layout : isLayout c = true) : scalarChar c = true := by
  simp only [isLayout, Bool.or_eq_true, beq_iff_eq] at layout
  rcases layout with ((rfl | rfl) | rfl) | rfl <;> decide

theorem scalarChar_digits (ds : List (Fin 10)) :
    ∀ c ∈ ds.map digitChar, scalarChar c = true := by
  have all : ∀ d : Fin 10, scalarChar (digitChar d) = true := by decide
  simpa using fun d _ => all d

theorem scalarChar_number (n : NumberText) : ∀ c ∈ n.chars, scalarChar c = true := by
  have fraction : ∀ c ∈ NumberText.fractionChars n.fraction, scalarChar c = true := by
    intro c member
    unfold NumberText.fractionChars at member
    split at member
    · simp at member
    · rcases mem_cons.mp member with rfl | digit
      · decide
      · exact scalarChar_digits _ c digit
  have exponent : ∀ c ∈ n.exponent.elim [] Exponent.chars, scalarChar c = true := by
    cases n.exponent with
    | none => simp
    | some e =>
      intro c member
      simp only [Option.elim_some, Exponent.chars, mem_cons, mem_append] at member
      rcases member with rfl | sign | digit
      · cases e.upper <;> decide
      · revert c
        cases e.sign <;> decide
      · exact scalarChar_digits _ c digit
  have sign : ∀ c ∈ (if n.negative = true then ['-'] else []), scalarChar c = true := by
    cases n.negative <;> decide
  intro c member
  simp only [NumberText.chars, mem_append] at member
  rcases member with minus | whole | point | power
  · exact sign c minus
  · exact scalarChar_digits _ c whole
  · exact fraction c point
  · exact exponent c power

theorem scalarChar_scalar (s : Scalar) : ∀ c ∈ s.chars, scalarChar c = true := by
  cases s with
  | null => decide
  | bool b => cases b <;> decide
  | number n => exact scalarChar_number n

theorem run_chars {x : Lexeme} (run : x.isRun = true) : ∀ c ∈ x.chars, beginsPiece c = false := by
  cases x with
  | blank c layout =>
    intro d member
    rw [mem_singleton.mp member]
    exact beginsPiece_of_scalarChar (scalarChar_layout layout)
  | line body inner | block body inner => simp [Lexeme.isRun] at run
  | token t =>
    cases t with
    | mark m => cases m <;> decide
    | literal s => simp [Lexeme.isRun] at run
    | scalar s => exact fun c member => beginsPiece_of_scalarChar (scalarChar_scalar s c member)

theorem piece_head {x : Lexeme} (piece : x.isRun = false) :
    ∃ c, x.chars.head? = some c ∧ beginsPiece c = true := by
  cases x with
  | blank c layout => simp [Lexeme.isRun] at piece
  | line body inner | block body inner => exact ⟨'/', rfl, by decide⟩
  | token t =>
    cases t with
    | mark m | scalar s => simp [Lexeme.isRun] at piece
    | literal s => exact ⟨'"', rfl, by decide⟩

theorem not_gap_head {x : Lexeme} (token : x.isGap = false) :
    ∃ c, x.chars.head? = some c ∧ isBlank c = false := by
  cases x with
  | blank c layout => simp [Lexeme.isGap] at token
  | line body inner | block body inner => exact ⟨'/', rfl, by decide⟩
  | token t =>
    obtain ⟨c, head, blank, -⟩ := t.exists_char
    exact ⟨c, head, blank⟩

/-- Lexemes of one kind at the beginning are exactly the characters of that kind there. -/
theorem span_textOf {p : Char → Bool} {kind : Lexeme → Bool}
    (inside : ∀ x, kind x = true → ∀ c ∈ x.chars, p c = true)
    (outside : ∀ x, kind x = false → ∃ c, x.chars.head? = some c ∧ p c = false) (xs : List Lexeme) :
    (textOf xs).takeWhile p = textOf (xs.takeWhile kind) ∧
      (textOf xs).dropWhile p = textOf (xs.dropWhile kind) := by
  induction xs with
  | nil => exact ⟨rfl, rfl⟩
  | cons x xs ih =>
    cases same : kind x with
    | true =>
      have chars := inside x same
      simp only [textOf_cons, takeWhile_append_of_pos chars, dropWhile_append_of_pos chars, ih,
        takeWhile_cons, dropWhile_cons, same, ↓reduceIte, and_self]
    | false =>
      obtain ⟨c, head, other⟩ := outside x same
      obtain ⟨cs, split⟩ := head?_eq_some_iff.mp head
      simp [same, split, other]

theorem span_blanks (xs : List Lexeme) :
    (textOf xs).takeWhile isBlank = textOf (xs.takeWhile Lexeme.isGap) ∧
      (textOf xs).dropWhile isBlank = textOf (xs.dropWhile Lexeme.isGap) := by
  refine span_textOf ?_ (fun x => not_gap_head) xs
  intro x gap c member
  cases x with
  | blank d layout =>
    obtain rfl : c = d := by simpa [Lexeme.chars] using member
    exact isBlank_of_isLayout layout
  | line body inner | block body inner | token t => simp [Lexeme.isGap] at gap

theorem span_run (xs : List Lexeme) :
    (textOf xs).takeWhile (!beginsPiece ·) = textOf (xs.takeWhile Lexeme.isRun) ∧
      (textOf xs).dropWhile (!beginsPiece ·) = textOf (xs.dropWhile Lexeme.isRun) := by
  refine span_textOf ?_ ?_ xs
  · intro x run c member
    rw [run_chars run c member]
    rfl
  · intro x piece
    obtain ⟨c, head, begins⟩ := piece_head piece
    exact ⟨c, head, by rw [begins]; rfl⟩

theorem LinesEnd.of_append {xs ys : List Lexeme} (ended : LinesEnd (xs ++ ys)) : LinesEnd ys := by
  induction xs with
  | nil => exact ended
  | cons x xs ih =>
    cases x with
    | line body inner => exact ih ended.2
    | blank c layout | block body inner | token t => exact ih ended

theorem LinesEnd.dropWhile {xs : List Lexeme} (ended : LinesEnd xs) (p : Lexeme → Bool) : LinesEnd (xs.dropWhile p) := by
  rw [← takeWhile_append_dropWhile (p := p) (l := xs)] at ended
  exact ended.of_append

theorem afterLineComment?_line {xs rest : List Lexeme} {body : List Char}
    {inner : ∀ c ∈ body, c ≠ '\r' ∧ c ≠ '\n'}
    (found : xs.dropWhile Lexeme.isGap = .line body inner :: rest) (ended : LinesEnd xs) :
    afterLineComment? (textOf xs) = some (textOf rest) := by
  have ended' : LinesEnd (.line body inner :: rest) := found ▸ ended.dropWhile Lexeme.isGap
  have stops : (textOf rest).dropWhile (fun c => c != '\r' && c != '\n') = textOf rest := by
    cases rest with
    | nil => rfl
    | cons x rest =>
      have breaks := ended'.1 x rfl
      cases x with
      | blank c layout =>
        simp only [Lexeme.breaksLine, Bool.or_eq_true, beq_iff_eq] at breaks
        rcases breaks with rfl | rfl <;> simp [Lexeme.chars]
      | line body inner | block body inner | token t => simp [Lexeme.breaksLine] at breaks
  have body' : ∀ c ∈ body, (c != '\r' && c != '\n') = true := by simpa using inner
  rw [afterLineComment?, dropBlanks, (span_blanks xs).2, found]
  simp only [textOf_cons, Lexeme.chars, cons_append, dropWhile_append_of_pos body', stops]

theorem afterLineComment?_other {xs : List Lexeme}
    (other : ∀ body inner rest, xs.dropWhile Lexeme.isGap ≠ .line body inner :: rest) :
    afterLineComment? (textOf xs) = none := by
  rw [afterLineComment?, dropBlanks, (span_blanks xs).2]
  cases found : xs.dropWhile Lexeme.isGap with
  | nil => rfl
  | cons x rest =>
    cases x with
    | blank c layout =>
      have gap := head?_dropWhile_not Lexeme.isGap xs
      rw [found] at gap
      simp [Lexeme.isGap] at gap
    | line body inner => exact absurd found (other body inner rest)
    | block body inner => rfl
    | token t =>
      obtain ⟨c, head, -, slash, -⟩ := t.exists_char
      obtain ⟨cs, split⟩ := head?_eq_some_iff.mp head
      simp only [textOf_cons, Lexeme.chars, split, cons_append]
      split
      · next line => exact absurd (cons.inj line).1 slash
      · rfl

theorem residue_blanks (k : Bool) (cs : List Char) :
    ∃ bs, Plain bs ∧ tokensOf bs = [] ∧ residue k cs = textOf bs := by
  have ends : ∃ bs, Plain bs ∧ tokensOf bs = [] ∧ lineEnds cs = textOf bs := by
    fun_induction lineEnds cs with
    | case1 => exact ⟨[], by simp [Plain], rfl, rfl⟩
    | case2 rest ih =>
      obtain ⟨bs, plain, tokens, text⟩ := ih
      refine ⟨.blank '\r' rfl :: bs, ?_, tokens, by rw [text]; rfl⟩
      simpa [Plain, Lexeme.isComment] using plain
    | case3 c rest _ newline ih =>
      obtain ⟨bs, plain, tokens, text⟩ := ih
      refine ⟨.blank '\n' rfl :: bs, ?_, tokens, by rw [text]; rfl⟩
      simpa [Plain, Lexeme.isComment] using plain
    | case4 c rest _ _ ih => exact ih
  cases k with
  | true => exact ends
  | false => exact ⟨[], by simp [Plain], rfl, rfl⟩

theorem exists_plain_append {cs cs' : List Char} {ts ts' : List Token}
    (later : ∃ ys, Plain ys ∧ tokensOf ys = ts ∧ cs = textOf ys) (bs : List Lexeme) (plain : Plain bs)
    (tokens : ts' = tokensOf bs ++ ts) (text : cs' = textOf bs ++ cs) :
    ∃ ys, Plain ys ∧ tokensOf ys = ts' ∧ cs' = textOf ys := by
  obtain ⟨ys, plainY, tokensY, textY⟩ := later
  refine ⟨bs ++ ys, ?_, by rw [tokensOf_append, tokensY, tokens], by rw [text, textY, textOf_append]⟩
  intro x member
  exact (mem_append.mp member).elim (plain x) (plainY x)

/-- Removing the comments keeps the tokens and leaves blanks between them. -/
def KeepsTokens (k : Bool) (xs : List Lexeme) : Prop :=
  ∃ ys, Plain ys ∧ tokensOf ys = tokensOf xs ∧ removeComments k (textOf xs) = textOf ys

theorem tokensOf_gaps (xs : List Lexeme) : tokensOf (xs.takeWhile Lexeme.isGap) = [] := by
  rw [tokensOf, filterMap_eq_nil_iff]
  intro x member
  have gap := all_eq_true.mp all_takeWhile x member
  cases x with
  | blank c layout => rfl
  | line body inner | block body inner | token t => simp [Lexeme.isGap] at gap

theorem textOf_run {x : Lexeme} (run : x.isRun = true) (xs : List Lexeme) :
    ∃ c cs, textOf (x :: xs) = c :: cs ∧ beginsPiece c = false := by
  obtain ⟨c, cs, split⟩ : ∃ c cs, x.chars = c :: cs := by
    cases x with
    | blank c layout => exact ⟨c, [], rfl⟩
    | line body inner | block body inner => simp [Lexeme.isRun] at run
    | token t =>
      obtain ⟨c, head, -⟩ := t.exists_char
      exact ⟨c, head?_eq_some_iff.mp head⟩
  exact ⟨c, cs ++ textOf xs, by rw [textOf_cons, split]; rfl, run_chars run c (by simp [split])⟩

theorem plain_takeWhile {p : Lexeme → Bool} (uncommented : ∀ x, p x = true → x.isComment = false)
    (xs : List Lexeme) : Plain (xs.takeWhile p) :=
  fun x member => uncommented x (all_eq_true.mp all_takeWhile x member)

/-- Blanks with a line comment behind them are removed; other plain lexemes are kept. -/
theorem keepsTokens_run {k : Bool} {x : Lexeme} {xs : List Lexeme} (run : x.isRun = true)
    (ended : LinesEnd (x :: xs))
    (later : ∀ ys, ys.length < (x :: xs).length → LinesEnd ys → KeepsTokens k ys) :
    KeepsTokens k (x :: xs) := by
  obtain ⟨c, cs, text, plain⟩ := textOf_run run xs
  have block : blockComment? (textOf (x :: xs)) = none := text ▸ blockComment?_plain plain cs
  by_cases line : ∃ body inner rest, (x :: xs).dropWhile Lexeme.isGap = .line body inner :: rest
  · obtain ⟨body, inner, rest, found⟩ := line
    have split := takeWhile_append_dropWhile (p := Lexeme.isGap) (l := x :: xs)
    rw [found] at split
    have ended' : LinesEnd (.line body inner :: rest) := found ▸ ended.dropWhile Lexeme.isGap
    have shorter : rest.length < (x :: xs).length := by
      rw [← split, length_append, length_cons]
      omega
    obtain ⟨bs, plainB, tokensB, textB⟩ := residue_blanks k ((textOf (x :: xs)).takeWhile isBlank)
    refine exists_plain_append (later rest shorter ended'.2) bs plainB ?_ ?_
    · rw [← split, tokensOf_append, tokensOf_gaps, tokensB]
      rfl
    · rw [removeComments_line block (afterLineComment?_line found ended), textB]
  · have other : afterLineComment? (textOf (x :: xs)) = none :=
      afterLineComment?_other fun body inner rest found => line ⟨body, inner, rest, found⟩
    have split := takeWhile_append_dropWhile (p := Lexeme.isRun) (l := x :: xs)
    have shorter : ((x :: xs).dropWhile Lexeme.isRun).length < (x :: xs).length := by
      rw [dropWhile_cons, if_pos run, length_cons]
      exact Nat.lt_succ_of_le (dropWhile_suffix _).length_le
    have plainR : Plain ((x :: xs).takeWhile Lexeme.isRun) := by
      refine plain_takeWhile (fun y run => ?_) _
      cases y with
      | blank c layout | token t => rfl
      | line body inner | block body inner => simp [Lexeme.isRun] at run
    refine exists_plain_append (later _ shorter (ended.dropWhile _)) ((x :: xs).takeWhile Lexeme.isRun) plainR ?_ ?_
    · rw [← tokensOf_append, split]
    · rw [← (span_run _).1, ← (span_run _).2]
      rw [text] at block other ⊢
      rw [removeComments_char block other (literalPiece?_plain plain cs)]
      simp [plain]

/-- Removing the comments of a text keeps its tokens. -/
theorem removeComments_tokens (k : Bool) (xs : List Lexeme) (ended : LinesEnd xs) : KeepsTokens k xs := by
  induction size : xs.length using Nat.strongRecOn generalizing xs with
  | ind n ih =>
    subst size
    cases xs with
    | nil => exact ⟨[], by simp [Plain], rfl, by rw [textOf_nil, removeComments]; rfl⟩
    | cons x xs =>
      have later := ih xs.length (Nat.lt_succ_self _) xs
      have run (plain : x.isRun = true) : KeepsTokens k (x :: xs) :=
        keepsTokens_run plain ended fun ys shorter ended => ih ys.length shorter ys ended rfl
      cases x with
      | blank c layout => exact run rfl
      | line body inner =>
        refine exists_plain_append (later ended.2 rfl) [] (by simp [Plain]) rfl ?_
        have found : (Lexeme.line body inner :: xs).dropWhile Lexeme.isGap = .line body inner :: xs := rfl
        have block : blockComment? (textOf (.line body inner :: xs)) = none := rfl
        rw [removeComments_line block (afterLineComment?_line found ended), (span_blanks _).1]
        cases k <;> rfl
      | block body inner =>
        have block : blockComment? (textOf (.block body inner :: xs)) =
            some (body ++ ['*', '/'], textOf xs) := by
          simp only [textOf_cons, Lexeme.chars, cons_append, append_assoc, nil_append,
            blockComment?]
          exact block?_closed inner (textOf xs)
        obtain ⟨bs, plain, tokens, text⟩ := residue_blanks k (body ++ ['*', '/'])
        refine exists_plain_append (later ended rfl) bs plain (by rw [tokens]; rfl) ?_
        rw [removeComments_block block, text]
      | token t =>
        cases t with
        | mark m => exact run rfl
        | scalar s => exact run rfl
        | literal s =>
          have piece := literalPiece?_literal s (textOf xs)
          have line : afterLineComment? (textOf (.token (.literal s) :: xs)) = none :=
            afterLineComment?_other (by rintro body inner rest ⟨⟩)
          refine exists_plain_append (later ended rfl) [.token (.literal s)] ?_ rfl ?_
          · simp [Plain, Lexeme.isComment]
          · rw [removeComments_literal rfl line piece]
            simp [Lexeme.chars, Token.chars]

/-- Tokens without the commas before closing brackets. -/
def settle : List Token → List Token
  | [] => []
  | .mark .comma :: .mark m :: rest =>
    if m.closes then .mark m :: settle rest else .mark .comma :: settle (.mark m :: rest)
  | t :: rest => t :: settle rest

theorem settle_token {t : Token} (other : t ≠ .mark .comma) (ts : List Token) :
    settle (t :: ts) = t :: settle ts := by
  rw [settle]
  rintro m rest rfl
  exact absurd rfl other

theorem settle_comma {t : Token} (opens : t.opens) (ts : List Token) :
    settle (.mark .comma :: t :: ts) = .mark .comma :: settle (t :: ts) := by
  cases t with
  | mark m => rcases opens with rfl | rfl <;> rfl
  | scalar s => rfl
  | literal s => rfl

theorem settle_closing (dangling : Bool) {m : Mark} (closes : m.closes = true) (ts : List Token) :
    settle (danglingComma true dangling ++ .mark m :: ts) = .mark m :: settle ts := by
  have plain : settle (.mark m :: ts) = .mark m :: settle ts :=
    settle_token (by rintro ⟨⟩; exact absurd closes (by decide)) ts
  cases dangling with
  | false => exact plain
  | true => simp [danglingComma, settle, closes]

mutual

/-- The tokens of a document without their dangling commas are those of its strict texts. -/
theorem settle_doc (d : Doc) (more : List Token) :
    settle (d.tokens true ++ more) = d.tokens false ++ settle more := by
  cases d with
  | scalar s => exact settle_token (by rintro ⟨⟩) more
  | text s => exact settle_token (by rintro ⟨⟩) more
  | emptyList => rfl
  | emptyObject => rfl
  | list items dangling =>
    simp only [Doc.tokens, cons_append, append_assoc, nil_append]
    rw [settle_token (by rintro ⟨⟩), settle_items, settle_closing dangling rfl]
    rfl
  | object members dangling =>
    simp only [Doc.tokens, cons_append, append_assoc, nil_append]
    rw [settle_token (by rintro ⟨⟩), settle_members, settle_closing dangling rfl]
    rfl

theorem settle_items (items : Items) (more : List Token) :
    settle (items.tokens true ++ more) = items.tokens false ++ settle more := by
  cases items with
  | last d => exact settle_doc d more
  | cons d rest =>
    obtain ⟨t, ts, first, opens⟩ := rest.exists_head true
    have later := settle_items rest more
    rw [first, cons_append] at later
    simp only [Items.tokens, cons_append, append_assoc]
    rw [settle_doc, first, cons_append, settle_comma opens, later]

theorem settle_members (members : Members) (more : List Token) :
    settle (members.tokens true ++ more) = members.tokens false ++ settle more := by
  cases members with
  | last key d =>
    simp only [Members.tokens, cons_append]
    rw [settle_token (by rintro ⟨⟩), settle_token (by rintro ⟨⟩), settle_doc]
  | cons key d rest =>
    obtain ⟨t, ts, first, opens⟩ := rest.exists_head true
    have later := settle_members rest more
    rw [first, cons_append] at later
    simp only [Members.tokens, cons_append, append_assoc]
    rw [settle_token (by rintro ⟨⟩), settle_token (by rintro ⟨⟩), settle_doc, first, cons_append,
      settle_comma opens, later]

end

theorem literalsOf_settle (ts : List Token) : literalsOf (settle ts) = literalsOf ts := by
  fun_induction settle ts with
  | case1 => rfl
  | case2 m rest closes ih => exact ih
  | case3 m rest closes ih => exact ih
  | case4 t rest _ ih =>
    unfold literalsOf at *
    simp only [filterMap_cons, ih]

section Equations

variable {rest : List Char} {k : Bool}

theorem removeDanglingCommas_literal (s : Literal) :
    removeDanglingCommas k (s.chars ++ rest) = s.chars ++ removeDanglingCommas k rest := by
  have piece := literalPiece?_literal s rest
  rw [removeDanglingCommas]
  split <;> simp_all

theorem removeDanglingCommas_cons {c : Char} (piece : literalPiece? (c :: rest) = none) :
    removeDanglingCommas k (c :: rest) =
      match c == ',', rest.dropWhile isBlank with
      | true, d :: after =>
        if d == ']' || d == '\x7d' then
          (if k then rest.takeWhile isBlank else []) ++ d :: removeDanglingCommas k after
        else c :: removeDanglingCommas k rest
      | _, _ => c :: removeDanglingCommas k rest := by
  rw [removeDanglingCommas]
  split
  · simp_all
  · split
    · simp_all
    · next same _ =>
      obtain ⟨rfl, rfl⟩ := cons.inj same
      split
      · next comma behind =>
        rw [comma, show rest.dropWhile isBlank = _ from behind]
      · next other =>
        split
        · next comma behind => exact absurd behind (other _ _ comma)
        · rfl

theorem removeDanglingCommas_char {c : Char} (plain : scalarChar c = true) :
    removeDanglingCommas k (c :: rest) = c :: removeDanglingCommas k rest := by
  have comma : (c == ',') = false := by simpa using (Bool.and_eq_true_iff.mp plain).2
  rw [removeDanglingCommas_cons (literalPiece?_plain (beginsPiece_of_scalarChar plain) rest), comma]

theorem removeDanglingCommas_chars {cs : List Char} (plain : ∀ c ∈ cs, scalarChar c = true) :
    removeDanglingCommas k (cs ++ rest) = cs ++ removeDanglingCommas k rest := by
  induction cs with
  | nil => rfl
  | cons c cs ih =>
    rw [cons_append, removeDanglingCommas_char (plain c mem_cons_self),
      ih fun d member => plain d (mem_cons_of_mem c member), cons_append]

theorem removeDanglingCommas_dangling {m : Mark} {after : List Char} (closes : m.closes = true)
    (behind : rest.dropWhile isBlank = m.char :: after) :
    removeDanglingCommas k (',' :: rest) =
      (if k then rest.takeWhile isBlank else []) ++ m.char :: removeDanglingCommas k after := by
  have close : (m.char == ']' || m.char == '\x7d') = true := by
    revert closes
    cases m <;> decide
  rw [removeDanglingCommas_cons rfl, behind]
  simp only [BEq.rfl, close, ↓reduceIte]

theorem removeDanglingCommas_comma
    (other : ∀ d, (rest.dropWhile isBlank).head? = some d → d ≠ ']' ∧ d ≠ '\x7d') :
    removeDanglingCommas k (',' :: rest) = ',' :: removeDanglingCommas k rest := by
  rw [removeDanglingCommas_cons rfl]
  cases behind : rest.dropWhile isBlank with
  | nil => rfl
  | cons d after => simp [other d (by rw [behind]; rfl)]

end Equations

/-- Removing the dangling commas of a plain text settles its tokens. -/
def SettlesTokens (k : Bool) (xs : List Lexeme) : Prop :=
  ∃ ys, Plain ys ∧ tokensOf ys = settle (tokensOf xs) ∧ removeDanglingCommas k (textOf xs) = textOf ys

theorem dropGaps_cases {xs : List Lexeme} (plain : Plain xs) :
    xs.dropWhile Lexeme.isGap = [] ∨ ∃ t rest, xs.dropWhile Lexeme.isGap = .token t :: rest := by
  cases found : xs.dropWhile Lexeme.isGap with
  | nil => exact Or.inl rfl
  | cons x rest =>
    have gap := head?_dropWhile_not Lexeme.isGap xs
    have member : x ∈ xs := (dropWhile_suffix Lexeme.isGap).mem (by rw [found]; exact mem_cons_self)
    have comment := plain x member
    rw [found] at gap
    cases x with
    | blank c layout => simp [Lexeme.isGap] at gap
    | line body inner | block body inner => simp [Lexeme.isComment] at comment
    | token t => exact Or.inr ⟨t, rest, rfl⟩

/-- A token that is no closing bracket does not look like one, and a comma before it is kept. -/
theorem comma_kept {t : Token} (inner : ∀ m, t = .mark m → m.closes = false) (ts : List Token) :
    settle (.mark .comma :: t :: ts) = .mark .comma :: settle (t :: ts) ∧
      ∀ d, t.chars.head? = some d → d ≠ ']' ∧ d ≠ '\x7d' := by
  have char (opens : t.opens) : ∀ d, t.chars.head? = some d → d ≠ ']' ∧ d ≠ '\x7d' := by
    intro d head
    obtain ⟨c, head', -, -, other⟩ := t.exists_char
    obtain rfl := Option.some.inj (head'.symm.trans head)
    exact other opens
  cases t with
  | scalar s => exact ⟨rfl, char trivial⟩
  | literal s => exact ⟨rfl, char trivial⟩
  | mark m =>
    have inner := inner m rfl
    refine ⟨by simp [settle, inner], ?_⟩
    rintro d ⟨⟩
    revert inner
    cases m <;> decide

theorem settlesTokens_comma {k : Bool} {xs : List Lexeme} (plain : Plain xs)
    (later : ∀ ys, ys.length ≤ xs.length → Plain ys → SettlesTokens k ys) :
    SettlesTokens k (.token (.mark .comma) :: xs) := by
  have split := takeWhile_append_dropWhile (p := Lexeme.isGap) (l := xs)
  obtain ⟨blanks, behind⟩ := span_blanks xs
  have kept (settled : settle (.mark .comma :: tokensOf xs) = .mark .comma :: settle (tokensOf xs))
      (other : ∀ d, ((textOf xs).dropWhile isBlank).head? = some d → d ≠ ']' ∧ d ≠ '\x7d') :
      SettlesTokens k (.token (.mark .comma) :: xs) :=
    exists_plain_append (later xs (Nat.le_refl _) plain) [.token (.mark .comma)]
      (by simp [Plain, Lexeme.isComment]) settled (removeDanglingCommas_comma other)
  rcases dropGaps_cases plain with none | ⟨t, rest, found⟩
  · have tokens : tokensOf xs = [] := by
      rw [← split, tokensOf_append, tokensOf_gaps, none]
      rfl
    refine kept (by rw [tokens]; rfl) ?_
    intro d head
    simp [behind, none] at head
  · have tokens : tokensOf xs = t :: tokensOf rest := by
      rw [← split, tokensOf_append, tokensOf_gaps, found]
      rfl
    rw [found, textOf_cons] at behind
    by_cases close : ∃ m, t = .mark m ∧ m.closes = true
    · obtain ⟨m, rfl, closes⟩ := close
      have shorter : rest.length ≤ xs.length := by
        rw [← split, found, length_append, length_cons]
        omega
      have plainR : Plain rest := by
        intro x member
        have suffix := dropWhile_suffix Lexeme.isGap (l := xs)
        rw [found] at suffix
        exact plain x (suffix.mem (mem_cons_of_mem _ member))
      have settled : settle (.mark .comma :: tokensOf xs) = .mark m :: settle (tokensOf rest) := by
        rw [tokens]
        exact settle_closing true closes (tokensOf rest)
      obtain ⟨bs, plainB, tokensB, textB⟩ : ∃ bs, Plain bs ∧ tokensOf bs = [] ∧
          (if k then (textOf xs).takeWhile isBlank else []) = textOf bs := by
        cases k with
        | true =>
          refine ⟨_, plain_takeWhile (fun y gap => ?_) xs, tokensOf_gaps xs, blanks⟩
          cases y with
          | blank c layout | token t => rfl
          | line body inner | block body inner => simp [Lexeme.isGap] at gap
        | false => exact ⟨[], by simp [Plain], rfl, rfl⟩
      refine exists_plain_append (later rest shorter plainR) (bs ++ [.token (.mark m)]) ?_ ?_ ?_
      · intro x member
        rcases mem_append.mp member with gap | mark
        · exact plainB x gap
        · rw [mem_singleton.mp mark]
          rfl
      · rw [tokensOf_append, tokensB]
        exact settled
      · refine (removeDanglingCommas_dangling closes behind).trans ?_
        rw [textB, textOf_append, append_assoc]
        rfl
    · have inner : ∀ m, t = .mark m → m.closes = false := fun m mark =>
        Bool.eq_false_iff.mpr fun closes => close ⟨m, mark, closes⟩
      obtain ⟨settled, char⟩ := comma_kept inner (tokensOf rest)
      refine kept (by rw [tokens, settled]) ?_
      intro d head
      obtain ⟨c, first, -⟩ := t.exists_char
      rw [behind, Lexeme.chars, head?_append, first] at head
      exact char d (first.trans head)

/-- Removing the dangling commas of a plain text keeps its other tokens. -/
theorem removeDanglingCommas_tokens (k : Bool) (xs : List Lexeme) (plain : Plain xs) : SettlesTokens k xs := by
  induction size : xs.length using Nat.strongRecOn generalizing xs with
  | ind n ih =>
    subst size
    cases xs with
    | nil => exact ⟨[], by simp [Plain], rfl, by rw [textOf_nil, removeDanglingCommas]; rfl⟩
    | cons x xs =>
      have plain' : Plain xs := fun y member => plain y (mem_cons_of_mem x member)
      have later := ih xs.length (Nat.lt_succ_self _) xs plain' rfl
      cases x with
      | blank c layout =>
        exact exists_plain_append later [.blank c layout] (by simp [Plain, Lexeme.isComment]) rfl
          (removeDanglingCommas_char (scalarChar_layout layout))
      | line body inner => exact absurd (plain _ mem_cons_self) (by simp [Lexeme.isComment])
      | block body inner => exact absurd (plain _ mem_cons_self) (by simp [Lexeme.isComment])
      | token t =>
        have token (other : t ≠ .mark .comma) (text : removeDanglingCommas k (t.chars ++ textOf xs) =
            t.chars ++ removeDanglingCommas k (textOf xs)) : SettlesTokens k (.token t :: xs) :=
          exists_plain_append later [.token t] (by simp [Plain, Lexeme.isComment]) (settle_token other _)
            (by simpa [Lexeme.chars] using text)
        cases t with
        | scalar s =>
          exact token (by rintro ⟨⟩) (removeDanglingCommas_chars (scalarChar_scalar s))
        | literal s => exact token (by rintro ⟨⟩) (removeDanglingCommas_literal s)
        | mark m =>
          by_cases comma : m = .comma
          · subst comma
            exact settlesTokens_comma plain' fun ys shorter plain =>
              ih ys.length (Nat.lt_succ_of_le shorter) ys plain rfl
          · refine token (by simpa using comma) (removeDanglingCommas_chars ?_)
            revert comma
            cases m <;> decide

/-- A sanitised text is a strict text of the same document: it is read as the document's value, and the
strings are spelled as before. -/
theorem sanitize_keeps_value (keepLines : Bool) {d : Doc} (r : Rendering d) :
    ∃ strict : StrictRendering d, sanitize keepLines r.text = strict.text ∧
      parse? (sanitize keepLines r.text) = some d.value ∧
      literalsOf (tokensOf strict.lexemes) = literalsOf (tokensOf r.lexemes) := by
  obtain ⟨ys, plainY, tokensY, textY⟩ :=
    removeComments_tokens keepLines r.lexemes r.linesEnd
  obtain ⟨zs, plainZ, tokensZ, textZ⟩ :=
    removeDanglingCommas_tokens keepLines ys plainY
  rw [tokensY] at tokensZ
  have written : tokensOf zs = d.tokens false := by
    have settled := settle_doc d []
    simpa [tokensZ, r.written, settle] using settled
  have text : sanitize keepLines r.text = String.ofList (textOf zs) := by
    simp only [sanitize, withoutDanglingCommas, withoutComments, Rendering.text, String.toList_ofList, textY,
      textZ]
  refine ⟨⟨zs, written, plainZ⟩, text, ?_, ?_⟩
  · rw [text]
    exact parse?_strict ⟨zs, written, plainZ⟩
  · rw [tokensZ, literalsOf_settle]

end VhdlWorkbench.Json

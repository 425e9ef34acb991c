import Mathlib.Data.Fintype.Basic
import Mathlib.Data.List.Induction
import Mathlib.Tactic.FinCases
import VhdlWorkbench.Proofs.JsonText

/-!
Reading strict JSON texts. Main statement: the reader takes a strict text of a document for the value that
the document writes.
-/

namespace VhdlWorkbench.Json

open List Lexeme

variable {rest : List Char} {c : Char} {xs : List Lexeme} {fuel : Nat} {d : Doc} {key : Literal}

theorem hexDigit?_char (d : HexDigit) : hexDigit? d.char = some d.value.val := by
  have all : ∀ value : Fin 16, ∀ upper : Bool,
      hexDigit? (HexDigit.char ⟨value, upper⟩) = some value.val := by
    decide
  exact all d.value d.upper

theorem readUnit?_chars (u : CodeUnit) (rest : List Char) :
    readUnit? (u.chars ++ rest) = some (u.code, rest) := by
  simp [CodeUnit.chars, readUnit?, hexDigit?_char, CodeUnit.code]

theorem escapeLetter?_letter (e : Escape) : e.letter ≠ 'u' ∧ escapeLetter? e.letter = some e.char := by
  cases e <;> decide

theorem unitChar_of_whole {n : Nat} (whole : n < 0xD800 ∨ 0xE000 ≤ n) : unitChar n = Char.ofNat n := by
  have outside : ¬(0xD800 ≤ n ∧ n < 0xE000) := by omega
  simp [unitChar, outside]

theorem readUnitEscape?_unit (u : CodeUnit) (whole : u.code < 0xD800 ∨ 0xE000 ≤ u.code)
    (rest : List Char) : readUnitEscape? (u.chars ++ rest) = some (Char.ofNat u.code, rest) := by
  have single : ¬(0xD800 ≤ u.code ∧ u.code < 0xDC00) := by omega
  simp [readUnitEscape?, readUnit?_chars, single, unitChar_of_whole whole]

theorem readUnitEscape?_pair (high low : CodeUnit) (first : 0xD800 ≤ high.code ∧ high.code < 0xDC00)
    (second : 0xDC00 ≤ low.code ∧ low.code < 0xE000) (rest : List Char) :
    readUnitEscape? (high.chars ++ '\\' :: 'u' :: (low.chars ++ rest)) =
      some (Char.ofNat (0x10000 + (high.code - 0xD800) * 1024 + (low.code - 0xDC00)), rest) := by
  simp [readUnitEscape?, readUnit?_chars, first, second]

theorem readString?_item (item : LiteralItem) (fuel : Nat) (body rest : List Char) :
    readString? (fuel + 1) body (item.chars ++ rest) = readString? fuel (item.char :: body) rest := by
  cases item with
  | plain c visible inner =>
    have printable : ¬c.toNat < 32 := by omega
    simp [LiteralItem.chars, LiteralItem.char, readString?, inner, printable]
  | escape e =>
    obtain ⟨other, known⟩ := escapeLetter?_letter e
    simp [LiteralItem.chars, LiteralItem.char, readString?, known]
  | unit u whole =>
    simp [LiteralItem.chars, LiteralItem.char, readString?, readUnitEscape?_unit u whole]
  | pair high low first second =>
    simp [LiteralItem.chars, LiteralItem.char, readString?,
      readUnitEscape?_pair high low first second]

theorem readString?_items (items : List LiteralItem) {fuel : Nat} (body rest : List Char)
    (enough : items.length < fuel) :
    readString? fuel body (items.flatMap LiteralItem.chars ++ '"' :: rest) =
      some (String.ofList (body.reverse ++ items.map LiteralItem.char), rest) := by
  induction items generalizing fuel body with
  | nil =>
    obtain ⟨fuel, rfl⟩ : ∃ f, fuel = f + 1 := ⟨fuel - 1, by omega⟩
    simp [readString?]
  | cons item items ih =>
    obtain ⟨fuel, rfl⟩ : ∃ f, fuel = f + 1 := ⟨fuel - 1, by omega⟩
    rw [flatMap_cons, append_assoc, readString?_item,
      ih _ (by simp only [length_cons] at enough; omega)]
    simp

theorem length_items_le (items : List LiteralItem) :
    items.length ≤ (items.flatMap LiteralItem.chars).length := by
  induction items with
  | nil => exact Nat.le_refl 0
  | cons item items ih =>
    have : 0 < item.chars.length := by cases item <;> simp [LiteralItem.chars]
    simp only [flatMap_cons, length_cons, length_append]
    omega

theorem readString?_literal (s : Literal) (rest : List Char) :
    readString? ((s.body ++ '"' :: rest).length + 1) [] (s.body ++ '"' :: rest) =
      some (s.value, rest) := by
  have := length_items_le s.items
  rw [Literal.body, readString?_items]
  · rfl
  · simp only [length_append]
    omega

theorem isDigit_digitChar (d : Fin 10) : (digitChar d).isDigit = true := by
  revert d
  decide

theorem digitChar_ne_sign (d : Fin 10) : digitChar d ≠ '-' ∧ digitChar d ≠ '+' := by
  revert d
  decide

theorem takeWhile_digits (ds : List (Fin 10)) (stops : ∀ c, rest.head? = some c → c.isDigit = false) :
    (ds.map digitChar ++ rest).takeWhile Char.isDigit = ds.map digitChar := by
  rw [takeWhile_append_of_pos (by simpa using fun d _ => isDigit_digitChar d)]
  cases rest with
  | nil => simp
  | cons c rest => simp [stops c rfl]

theorem decimalNumeral_digits (ds : List (Fin 10)) :
    decimalNumeral (ds.map digitChar) = numeral ds := by
  have digit : ∀ d : Fin 10, (digitChar d).toNat - 48 = d.val := by decide
  induction ds using reverseRecOn with
  | nil => rfl
  | append_singleton ds d ih =>
    unfold decimalNumeral numeral at *
    rw [map_append, foldl_append, ih]
    simp [digit, Nat.ofDigits_cons]
    omega

/-- The text goes on with a blank or a mark, or ends. -/
def Separated (cs : List Char) : Prop :=
  ∀ c, cs.head? = some c → isLayout c = true ∨ ∃ m : Mark, c = m.char

theorem Separated.not_number {cs : List Char} (separated : Separated cs) {c : Char}
    (head : cs.head? = some c) : c.isDigit = false ∧ c ≠ '.' ∧ c ≠ 'e' ∧ c ≠ 'E' := by
  rcases separated c head with blank | ⟨m, rfl⟩
  · simp only [isLayout, Bool.or_eq_true, beq_iff_eq] at blank
    rcases blank with ((rfl | rfl) | rfl) | rfl <;> decide
  · cases m <;> decide

theorem readExponent_absent
    (stops : ∀ c, rest.head? = some c → c ≠ 'e' ∧ c ≠ 'E') : readExponent rest = (none, rest) := by
  cases rest with
  | nil => rfl
  | cons c rest => simp [readExponent, stops c rfl]

theorem readExponent_chars (e : Exponent) {rest : List Char}
    (stops : ∀ c, rest.head? = some c → c.isDigit = false) :
    readExponent (e.chars ++ rest) = (some e.value, rest) := by
  obtain ⟨upper, sign, digits, nonempty⟩ := e
  have run := takeWhile_digits digits stops
  have value := decimalNumeral_digits digits
  have behind : (digits.map digitChar ++ rest).drop digits.length = rest :=
    drop_left' (length_map ..)
  cases sign with
  | plus | minus =>
    simp [Exponent.chars, Exponent.signChars, readExponent, run, value, behind, nonempty, Exponent.value]
  | absent =>
    have digit : ∀ c, (digits.map digitChar ++ rest).head? = some c → c ≠ '-' ∧ c ≠ '+' := by
      obtain ⟨d, ds, rfl⟩ := exists_cons_of_ne_nil nonempty
      rintro c ⟨⟩
      exact digitChar_ne_sign d
    simp only [Exponent.chars, Exponent.signChars, readExponent, nil_append, cons_append]
    rw [if_pos (by cases upper <;> rfl)]
    split
    · next minus => exact absurd rfl (digit '-' (by rw [minus]; rfl)).1
    · next plus => exact absurd rfl (digit '+' (by rw [plus]; rfl)).2
    · simp [run, value, behind, nonempty, Exponent.value]

theorem readFraction_chars (ds : List (Fin 10)) {rest : List Char}
    (stops : ∀ c, rest.head? = some c → c.isDigit = false ∧ c ≠ '.') :
    readFraction (NumberText.fractionChars ds ++ rest) = (ds.map digitChar, rest) := by
  have run := takeWhile_digits ds fun c head => (stops c head).1
  have behind : (ds.map digitChar ++ rest).drop ds.length = rest :=
    drop_left' (length_map ..)
  by_cases empty : ds = []
  · subst empty
    cases rest with
    | nil => rfl
    | cons c rest =>
      simp only [NumberText.fractionChars, readFraction, ↓reduceIte, nil_append, map_nil]
      split
      · next point => exact absurd (cons.inj point).1 (stops c rfl).2
      · rfl
  · simp [NumberText.fractionChars, readFraction, empty, run, behind]

theorem readExponent_option (e : Option Exponent) (separated : Separated rest) :
    readExponent (e.elim [] Exponent.chars ++ rest) = (e.map Exponent.value, rest) := by
  cases e with
  | none => exact readExponent_absent fun c head => (separated.not_number head).2.2
  | some e => exact readExponent_chars e fun c head => (separated.not_number head).1

theorem exponent_head (e : Option Exponent) {rest : List Char} (separated : Separated rest)
    (c : Char) (head : (e.elim [] Exponent.chars ++ rest).head? = some c) :
    c.isDigit = false ∧ c ≠ '.' := by
  cases e with
  | none =>
    have other := separated.not_number head
    exact ⟨other.1, other.2.1⟩
  | some e =>
    obtain rfl : (if e.upper = true then 'E' else 'e') = c := by simpa [Exponent.chars] using head
    cases e.upper <;> decide

theorem fraction_head (ds : List (Fin 10)) {rest : List Char}
    (stops : ∀ c, rest.head? = some c → c.isDigit = false) (c : Char)
    (head : (NumberText.fractionChars ds ++ rest).head? = some c) : c.isDigit = false := by
  by_cases empty : ds = []
  · exact stops c (by simpa [NumberText.fractionChars, empty] using head)
  · obtain rfl : '.' = c := by simpa [NumberText.fractionChars, empty] using head
    decide

theorem wholeDigits (n : NumberText) :
    (if (n.whole.map digitChar).head? == some '0' then ['0'] else n.whole.map digitChar) =
      n.whole.map digitChar := by
  split
  · next zero =>
    have only : n.whole = [0] := by
      apply n.plain
      obtain ⟨d, ds, split⟩ := exists_cons_of_ne_nil n.nonempty
      have same : ∀ d : Fin 10, digitChar d = '0' → d = 0 := by decide
      rw [split] at zero ⊢
      exact congrArg some (same d (by simpa using zero))
    rw [only]
    rfl
  · rfl

def readUnsigned (negative : Bool) (rest : List Char) : Option (Json × List Char) :=
  let run := rest.takeWhile Char.isDigit
  let whole := if run.head? == some '0' then ['0'] else run
  if whole.isEmpty then none
  else
    let (fraction, rest) := readFraction (rest.drop whole.length)
    let (exponent, rest) := readExponent rest
    let digits := decimalNumeral (whole ++ fraction)
    if fraction.isEmpty && exponent.isNone then
      some (.int (if negative then -(digits : Int) else digits), rest)
    else some (.decimal ⟨negative, digits, exponent.getD 0 - fraction.length⟩, rest)

theorem readNumber?_minus (rest : List Char) :
    readNumber? ('-' :: rest) = readUnsigned true rest :=
  rfl

theorem readNumber?_digit (d : Fin 10) (rest : List Char) :
    readNumber? (digitChar d :: rest) = readUnsigned false (digitChar d :: rest) := by
  unfold readNumber?
  split
  next negative rest' sign =>
  split at sign
  · next minus => exact absurd (cons.inj minus).1 (digitChar_ne_sign d).1
  · obtain ⟨rfl, rfl⟩ := Prod.mk.inj sign
    rfl

theorem readUnsigned_chars (n : NumberText) {rest : List Char} (separated : Separated rest) :
    readUnsigned n.negative (n.whole.map digitChar ++ (NumberText.fractionChars n.fraction ++
      (n.exponent.elim [] Exponent.chars ++ rest))) = some (n.value, rest) := by
  have exponent := readExponent_option n.exponent separated
  have fraction := readFraction_chars n.fraction (exponent_head n.exponent separated)
  have run := takeWhile_digits n.whole
    (fraction_head n.fraction fun c head => (exponent_head n.exponent separated c head).1)
  have behind (tail : List Char) :
      (n.whole.map digitChar ++ tail).drop (n.whole.map digitChar).length = tail := drop_left
  have nonempty : (n.whole.map digitChar).isEmpty = false := by simp [n.nonempty]
  have digits : decimalNumeral (n.whole.map digitChar ++ n.fraction.map digitChar) =
      numeral (n.whole ++ n.fraction) := by
    rw [← map_append, decimalNumeral_digits]
  simp only [readUnsigned, run, wholeDigits, nonempty, Bool.false_eq_true, ↓reduceIte, behind, fraction,
    exponent, digits, NumberText.value]
  by_cases plain : n.fraction = [] ∧ n.exponent.isNone
  · simp [plain]
  · rw [if_neg plain, if_neg (by simpa using plain)]
    cases n.exponent <;> simp

theorem readNumber?_chars (n : NumberText) {rest : List Char} (separated : Separated rest) :
    readNumber? (n.chars ++ rest) = some (n.value, rest) := by
  have unsigned := readUnsigned_chars n separated
  obtain ⟨d, ds, split⟩ := exists_cons_of_ne_nil n.nonempty
  unfold NumberText.chars
  cases sign : n.negative with
  | true =>
    rw [sign] at unsigned
    simpa [readNumber?_minus] using unsigned
  | false =>
    rw [sign, split] at unsigned
    simpa [split, readNumber?_digit] using unsigned

theorem isLayout_of_not_blank (mark : Text.isBlank c = false) : isLayout c = false := by
  rw [Bool.eq_false_iff]
  intro layout
  simp only [isLayout, Bool.or_eq_true, beq_iff_eq] at layout
  rcases layout with ((rfl | rfl) | rfl) | rfl <;> exact absurd mark (by decide)

theorem skipLayout_token {xs : List Lexeme} {t : Token} {more : List Token} (plain : Plain xs)
    (tokens : tokensOf xs = t :: more) :
    ∃ ys, Plain ys ∧ tokensOf ys = more ∧ skipLayout (textOf xs) = t.chars ++ textOf ys := by
  induction xs with
  | nil => exact absurd tokens (by simp [tokensOf])
  | cons x xs ih =>
    have later : Plain xs := fun y member => plain y (mem_cons_of_mem x member)
    cases x with
    | blank c layout =>
      obtain ⟨ys, rest, found, skipped⟩ := ih later tokens
      refine ⟨ys, rest, found, ?_⟩
      rw [← skipped]
      simp [skipLayout, chars, layout]
    | line body inner => exact absurd (plain _ mem_cons_self) (by simp [isComment])
    | block body inner => exact absurd (plain _ mem_cons_self) (by simp [isComment])
    | token u =>
      obtain ⟨rfl, rfl⟩ : u = t ∧ tokensOf xs = more := cons.inj tokens
      refine ⟨xs, later, rfl, ?_⟩
      obtain ⟨c, head, mark, -⟩ := u.exists_char
      obtain ⟨cs, split⟩ := head?_eq_some_iff.mp head
      simp [skipLayout, chars, split, isLayout_of_not_blank mark]

theorem skipLayout_end {xs : List Lexeme} (plain : Plain xs) (tokens : tokensOf xs = []) :
    skipLayout (textOf xs) = [] := by
  induction xs with
  | nil => rfl
  | cons x xs ih =>
    have later : Plain xs := fun y member => plain y (mem_cons_of_mem x member)
    cases x with
    | blank c layout =>
      rw [← ih later tokens]
      simp [skipLayout, chars, layout]
    | line body inner => exact absurd (plain _ mem_cons_self) (by simp [isComment])
    | block body inner => exact absurd (plain _ mem_cons_self) (by simp [isComment])
    | token u => exact absurd tokens (by simp [tokensOf, token?])

/-- A mark comes next, or nothing. -/
def Follows (ts : List Token) : Prop :=
  ∀ t, ts.head? = some t → ∃ m, t = .mark m

theorem separated_of_follows (plain : Plain xs) (follows : Follows (tokensOf xs)) : Separated (textOf xs) := by
  intro c head
  cases xs with
  | nil => simp at head
  | cons x xs =>
    cases x with
    | blank d layout =>
      obtain rfl : d = c := by simpa [chars] using head
      exact Or.inl layout
    | line body inner => exact absurd (plain _ mem_cons_self) (by simp [isComment])
    | block body inner => exact absurd (plain _ mem_cons_self) (by simp [isComment])
    | token t =>
      obtain ⟨m, rfl⟩ := follows t rfl
      obtain rfl : m.char = c := by simpa [chars, Token.chars] using head
      exact Or.inr ⟨m, rfl⟩

theorem readValue?_digit (fuel : Nat) (d : Fin 10) (rest : List Char) :
    readValue? (fuel + 1) (digitChar d :: rest) = readNumber? (digitChar d :: rest) := by
  fin_cases d <;> rfl

theorem readValue?_minus (fuel : Nat) (d : Fin 10) (rest : List Char) :
    readValue? (fuel + 1) ('-' :: digitChar d :: rest) = readNumber? ('-' :: digitChar d :: rest) := by
  fin_cases d <;> rfl

theorem readValue?_number (n : NumberText) (fuel : Nat) (rest : List Char) :
    readValue? (fuel + 1) (n.chars ++ rest) = readNumber? (n.chars ++ rest) := by
  obtain ⟨d, ds, split⟩ := exists_cons_of_ne_nil n.nonempty
  cases sign : n.negative with
  | true => simp [NumberText.chars, sign, split, readValue?_minus]
  | false => simp [NumberText.chars, sign, split, readValue?_digit]

theorem readValue?_scalar (s : Scalar) (fuel : Nat) (separated : Separated rest) :
    readValue? (fuel + 1) (s.chars ++ rest) = some (s.value, rest) := by
  cases s with
  | null => rfl
  | bool b => cases b <;> rfl
  | number n => rw [Scalar.chars, readValue?_number, readNumber?_chars n separated, Scalar.value]

theorem readValue?_literal (s : Literal) (fuel : Nat) (rest : List Char) :
    readValue? (fuel + 1) (s.chars ++ rest) = some (.text s.value, rest) := by
  have read := readString?_literal s rest
  simp only [Literal.chars, cons_append, append_assoc, nil_append, readValue?]
  rw [read]
  rfl

theorem readValue?_list (fuel : Nat) {tail : List Char}
    (skipped : skipLayout rest = c :: tail) (item : c ≠ ']') :
    readValue? (fuel + 1) ('[' :: rest) = readItems? fuel [] (c :: tail) := by
  simp only [readValue?, skipped]
  split
  · next close => exact absurd (cons.inj close).1 item
  · rfl

theorem readValue?_object (fuel : Nat) {tail : List Char}
    (skipped : skipLayout rest = c :: tail) (member : c ≠ '\x7d') :
    readValue? (fuel + 1) ('\x7b' :: rest) = readMembers? fuel [] (c :: tail) := by
  simp only [readValue?, skipped]
  split
  · next close => exact absurd (cons.inj close).1 member
  · rfl

/-- A document is read from a plain text that begins with its tokens. -/
def ReadsDoc (fuel : Nat) (d : Doc) : Prop :=
  ∀ (xs : List Lexeme) (more : List Token), Plain xs → tokensOf xs = d.tokens false ++ more →
    Follows more → ∃ ys, Plain ys ∧ tokensOf ys = more ∧
      readValue? fuel (skipLayout (textOf xs)) = some (d.value, textOf ys)

def ReadsItems (fuel : Nat) (items : Items) : Prop :=
  ∀ (xs : List Lexeme) (more : List Token) (before : List Json), Plain xs →
    tokensOf xs = items.tokens false ++ .mark .closeList :: more → ∃ ys, Plain ys ∧ tokensOf ys = more ∧
      readItems? fuel before (skipLayout (textOf xs)) =
        some (.list (before.reverse ++ items.values), textOf ys)

def ReadsMembers (fuel : Nat) (members : Members) : Prop :=
  ∀ (xs : List Lexeme) (more : List Token) (before : List (String × Json)), Plain xs →
    tokensOf xs = members.tokens false ++ .mark .closeObject :: more →
    ∃ ys, Plain ys ∧ tokensOf ys = more ∧
      readMembers? fuel before (skipLayout (textOf xs)) =
        some (.object (members.table before), textOf ys)

theorem follows_mark (m : Mark) (ts : List Token) : Follows (.mark m :: ts) := by
  rintro t ⟨⟩
  exact ⟨m, rfl⟩

section

variable (reads : ReadsDoc fuel d)
include reads

theorem readsItems_last : ReadsItems (fuel + 1) (.last d) := by
  intro xs more before plain tokens
  obtain ⟨ys, plainY, tokensY, value⟩ := reads xs _ plain tokens (follows_mark _ _)
  obtain ⟨zs, plainZ, tokensZ, close⟩ := skipLayout_token plainY tokensY
  refine ⟨zs, plainZ, tokensZ, ?_⟩
  simp [readItems?, value, close, Token.chars, Mark.char, Items.values]

theorem readsItems_cons {rest : Items} (later : ReadsItems fuel rest) : ReadsItems (fuel + 1) (.cons d rest) := by
  intro xs more before plain tokens
  rw [Items.tokens, append_assoc, cons_append] at tokens
  obtain ⟨ys, plainY, tokensY, value⟩ := reads xs _ plain tokens (follows_mark _ _)
  obtain ⟨zs, plainZ, tokensZ, comma⟩ := skipLayout_token plainY tokensY
  obtain ⟨ws, plainW, tokensW, items⟩ := later zs more (d.value :: before) plainZ tokensZ
  refine ⟨ws, plainW, tokensW, ?_⟩
  simp [readItems?, value, comma, Token.chars, Mark.char, items, Items.values]

theorem readMembers?_value {m : Mark} {more : List Token} (before : List (String × Json)) (plain : Plain xs)
    (tokens : tokensOf xs = .literal key :: .mark .colon :: (d.tokens false ++ .mark m :: more)) :
    ∃ ys, Plain ys ∧ tokensOf ys = more ∧
      readMembers? (fuel + 1) before (skipLayout (textOf xs)) =
        match m.char :: textOf ys with
        | ',' :: rest =>
          readMembers? fuel (Table.put before key.value d.value) (skipLayout rest)
        | '\x7d' :: rest => some (.object (Table.put before key.value d.value), rest)
        | _ => none := by
  obtain ⟨ys, plainY, tokensY, name⟩ := skipLayout_token plain tokens
  obtain ⟨zs, plainZ, tokensZ, colon⟩ := skipLayout_token plainY tokensY
  obtain ⟨vs, plainV, tokensV, value⟩ := reads zs _ plainZ tokensZ (follows_mark _ _)
  obtain ⟨ws, plainW, tokensW, mark⟩ := skipLayout_token plainV tokensV
  refine ⟨ws, plainW, tokensW, ?_⟩
  have read := readString?_literal key (textOf ys)
  rw [name]
  simp only [Token.chars, Literal.chars, cons_append, append_assoc, nil_append,
    readMembers?, read]
  simp only [colon, Token.chars, Mark.char, cons_append, nil_append, value]
  exact mark ▸ rfl

theorem readsMembers_last : ReadsMembers (fuel + 1) (.last key d) := by
  intro xs more before plain tokens
  obtain ⟨ys, plainY, tokensY, read⟩ := readMembers?_value reads before plain tokens
  exact ⟨ys, plainY, tokensY, read⟩

theorem readsMembers_cons {rest : Members} (later : ReadsMembers fuel rest) :
    ReadsMembers (fuel + 1) (.cons key d rest) := by
  intro xs more before plain tokens
  simp only [Members.tokens, cons_append, append_assoc] at tokens
  obtain ⟨ys, plainY, tokensY, read⟩ := readMembers?_value reads before plain tokens
  obtain ⟨zs, plainZ, tokensZ, members⟩ := later ys more _ plainY tokensY
  exact ⟨zs, plainZ, tokensZ, read.trans members⟩

end

theorem skipLayout_opens {t : Token} {more : List Token} (plain : Plain xs)
    (tokens : tokensOf xs = t :: more) (opens : t.opens) :
    ∃ c tail, skipLayout (textOf xs) = c :: tail ∧ c ≠ ']' ∧ c ≠ '\x7d' := by
  obtain ⟨ys, -, -, skipped⟩ := skipLayout_token plain tokens
  obtain ⟨c, head, -, -, other⟩ := t.exists_char
  obtain ⟨cs, split⟩ := head?_eq_some_iff.mp head
  exact ⟨c, cs ++ textOf ys, by rw [skipped, split]; rfl, other opens⟩

theorem readsDoc_list {items : Items} (dangling : Bool)
    (reads : ReadsItems fuel items) : ReadsDoc (fuel + 1) (.list items dangling) := by
  intro xs more plain tokens _
  obtain ⟨t, ts, first, opens⟩ := items.exists_head false
  simp only [Doc.tokens, danglingComma, Bool.false_and, Bool.false_eq_true, ↓reduceIte, nil_append,
    cons_append, append_assoc] at tokens
  obtain ⟨ys, plainY, tokensY, bracket⟩ := skipLayout_token plain tokens
  obtain ⟨zs, plainZ, tokensZ, read⟩ := reads ys more [] plainY tokensY
  rw [first, cons_append] at tokensY
  obtain ⟨c, tail, skipped, item, -⟩ := skipLayout_opens plainY tokensY opens
  refine ⟨zs, plainZ, tokensZ, ?_⟩
  rw [bracket]
  exact (readValue?_list fuel skipped item).trans (skipped ▸ read)

theorem readsDoc_object {members : Members} (dangling : Bool)
    (reads : ReadsMembers fuel members) : ReadsDoc (fuel + 1) (.object members dangling) := by
  intro xs more plain tokens _
  obtain ⟨t, ts, first, opens⟩ := members.exists_head false
  simp only [Doc.tokens, danglingComma, Bool.false_and, Bool.false_eq_true, ↓reduceIte, nil_append,
    cons_append, append_assoc] at tokens
  obtain ⟨ys, plainY, tokensY, bracket⟩ := skipLayout_token plain tokens
  obtain ⟨zs, plainZ, tokensZ, read⟩ := reads ys more [] plainY tokensY
  rw [first, cons_append] at tokensY
  obtain ⟨c, tail, skipped, -, member⟩ := skipLayout_opens plainY tokensY opens
  refine ⟨zs, plainZ, tokensZ, ?_⟩
  rw [bracket]
  exact (readValue?_object fuel skipped member).trans (skipped ▸ read)

theorem readsDoc_flat (fuel : Nat) {d : Doc}
    (flat : (∃ s, d = .scalar s) ∨ (∃ s, d = .text s) ∨ d = .emptyList ∨ d = .emptyObject) :
    ReadsDoc (fuel + 1) d := by
  intro xs more plain tokens follows
  rcases flat with ⟨s, rfl⟩ | ⟨s, rfl⟩ | rfl | rfl
  · obtain ⟨ys, plainY, tokensY, scalar⟩ := skipLayout_token plain tokens
    have separated := separated_of_follows plainY (tokensY.symm ▸ follows)
    exact ⟨ys, plainY, tokensY, scalar ▸ readValue?_scalar s fuel separated⟩
  · obtain ⟨ys, plainY, tokensY, literal⟩ := skipLayout_token plain tokens
    exact ⟨ys, plainY, tokensY, literal ▸ readValue?_literal s fuel (textOf ys)⟩
  · obtain ⟨ys, plainY, tokensY, bracket⟩ := skipLayout_token plain tokens
    obtain ⟨zs, plainZ, tokensZ, close⟩ := skipLayout_token plainY tokensY
    refine ⟨zs, plainZ, tokensZ, ?_⟩
    simp [bracket, Token.chars, Mark.char, readValue?, close, Doc.value]
  · obtain ⟨ys, plainY, tokensY, bracket⟩ := skipLayout_token plain tokens
    obtain ⟨zs, plainZ, tokensZ, close⟩ := skipLayout_token plainY tokensY
    refine ⟨zs, plainZ, tokensZ, ?_⟩
    simp [bracket, Token.chars, Mark.char, readValue?, close, Doc.value]

theorem reads_all (fuel : Nat) :
    (∀ d : Doc, (d.tokens false).length ≤ fuel → ReadsDoc fuel d) ∧
    (∀ items : Items, (items.tokens false).length < fuel → ReadsItems fuel items) ∧
    (∀ members : Members, (members.tokens false).length < fuel → ReadsMembers fuel members) := by
  induction fuel with
  | zero =>
    refine ⟨fun d enough => ?_, fun _ enough => absurd enough (Nat.not_lt_zero _),
      fun _ enough => absurd enough (Nat.not_lt_zero _)⟩
    obtain ⟨t, ts, first, -⟩ := d.exists_head false
    simp [first] at enough
  | succ fuel ih =>
    obtain ⟨docs, items, members⟩ := ih
    refine ⟨fun d enough => ?_, fun list enough => ?_, fun table enough => ?_⟩
    · cases d with
      | scalar s => exact readsDoc_flat fuel (.inl ⟨s, rfl⟩)
      | text s => exact readsDoc_flat fuel (.inr (.inl ⟨s, rfl⟩))
      | emptyList => exact readsDoc_flat fuel (.inr (.inr (.inl rfl)))
      | emptyObject => exact readsDoc_flat fuel (.inr (.inr (.inr rfl)))
      | list list dangling =>
        simp only [Doc.tokens, length_cons, length_append] at enough
        exact readsDoc_list dangling (items list (by omega))
      | object table dangling =>
        simp only [Doc.tokens, length_cons, length_append] at enough
        exact readsDoc_object dangling (members table (by omega))
    · cases list with
      | last d =>
        simp only [Items.tokens] at enough
        exact readsItems_last (docs d (by omega))
      | cons d rest =>
        simp only [Items.tokens, length_append, length_cons] at enough
        obtain ⟨t, ts, first, -⟩ := d.exists_head false
        have one : 0 < (d.tokens false).length := by simp [first]
        exact readsItems_cons (docs d (by omega)) (items rest (by omega))
    · cases table with
      | last key d =>
        simp only [Members.tokens, length_cons] at enough
        exact readsMembers_last (docs d (by omega))
      | cons key d rest =>
        simp only [Members.tokens, length_cons, length_append] at enough
        exact readsMembers_cons (docs d (by omega)) (members rest (by omega))

theorem length_tokensOf_le (xs : List Lexeme) : (tokensOf xs).length ≤ (textOf xs).length := by
  induction xs with
  | nil => exact Nat.le_refl 0
  | cons x xs ih =>
    rw [textOf_cons, length_append]
    cases x with
    | token t =>
      obtain ⟨c, head, -⟩ := t.exists_char
      obtain ⟨cs, split⟩ := head?_eq_some_iff.mp head
      simp only [tokensOf, token?, chars, split, filterMap_cons, length_cons]
      unfold tokensOf at ih
      omega
    | blank c layout | line body inner | block body inner =>
      simp only [tokensOf, token?, filterMap_cons]
      unfold tokensOf at ih
      omega

theorem parse?_strict {d : Doc} (r : StrictRendering d) : parse? r.text = some d.value := by
  have enough : (d.tokens false).length ≤ 2 * (textOf r.lexemes).length + 2 := by
    have := length_tokensOf_le r.lexemes
    rw [r.written] at this
    omega
  obtain ⟨ys, plain, tokens, read⟩ := (reads_all _).1 d enough r.lexemes [] r.plain
    (by rw [r.written, append_nil]) (by simp [Follows])
  simp [parse?, StrictRendering.text, read, skipLayout_end plain tokens]

end VhdlWorkbench.Json

import Mathlib.Data.Nat.Digits.Defs
import VhdlWorkbench.Json.Reader
import VhdlWorkbench.Text.Blank

/-!
JSON texts with their spelling: the tokens of a document and, between them, blanks and comments.
-/

namespace VhdlWorkbench.Json

open List String

/-- A hexadecimal digit in either case. -/
structure HexDigit where
  value : Fin 16
  upper : Bool
deriving DecidableEq, Repr

def HexDigit.char (d : HexDigit) : Char :=
  Char.ofNat (d.value + if d.value < 10 then 48 else if d.upper then 55 else 87)

/-- Four hexadecimal digits. -/
structure CodeUnit where
  first : HexDigit
  second : HexDigit
  third : HexDigit
  fourth : HexDigit
deriving DecidableEq, Repr

namespace CodeUnit

def chars (u : CodeUnit) : List Char :=
  [u.first.char, u.second.char, u.third.char, u.fourth.char]

def code (u : CodeUnit) : Nat :=
  ((u.first.value * 16 + u.second.value) * 16 + u.third.value) * 16 + u.fourth.value

end CodeUnit

/-- The characters that are written by a letter behind a backslash. -/
inductive Escape where
  | quote
  | backslash
  | slash
  | backspace
  | formFeed
  | lineFeed
  | carriageReturn
  | tab
deriving DecidableEq, Repr

namespace Escape

def letter : Escape → Char
  | quote => '"'
  | backslash => '\\'
  | slash => '/'
  | backspace => 'b'
  | formFeed => 'f'
  | lineFeed => 'n'
  | carriageReturn => 'r'
  | tab => 't'

def char : Escape → Char
  | quote => '"'
  | backslash => '\\'
  | slash => '/'
  | backspace => '\x08'
  | formFeed => '\x0c'
  | lineFeed => '\n'
  | carriageReturn => '\r'
  | tab => '\t'

end Escape

/-- One character of a string in its spelling. -/
inductive LiteralItem where
  | plain (c : Char) (visible : 32 ≤ c.toNat) (inner : c ≠ '"' ∧ c ≠ '\\')
  | escape (e : Escape)
  /-- A code outside the ranges of the halves of pairs. -/
  | unit (u : CodeUnit) (whole : u.code < 0xD800 ∨ 0xE000 ≤ u.code)
  /-- A character beyond the basic plane. -/
  | pair (high low : CodeUnit) (first : 0xD800 ≤ high.code ∧ high.code < 0xDC00)
      (second : 0xDC00 ≤ low.code ∧ low.code < 0xE000)

namespace LiteralItem

def chars : LiteralItem → List Char
  | plain c _ _ => [c]
  | escape e => ['\\', e.letter]
  | unit u _ => '\\' :: 'u' :: u.chars
  | pair high low _ _ => '\\' :: 'u' :: (high.chars ++ '\\' :: 'u' :: low.chars)

def char : LiteralItem → Char
  | plain c _ _ => c
  | escape e => e.char
  | unit u _ => Char.ofNat u.code
  | pair high low _ _ => Char.ofNat (0x10000 + (high.code - 0xD800) * 1024 + (low.code - 0xDC00))

end LiteralItem

/-- A string in its spelling. -/
structure Literal where
  items : List LiteralItem

namespace Literal

def body (s : Literal) : List Char :=
  s.items.flatMap LiteralItem.chars

def chars (s : Literal) : List Char :=
  '"' :: (s.body ++ ['"'])

def value (s : Literal) : String :=
  ofList (s.items.map LiteralItem.char)

end Literal

def digitChar (d : Fin 10) : Char :=
  Char.ofNat (48 + d)

/-- The number that digits write, the most significant first. -/
def numeral (ds : List (Fin 10)) : Nat :=
  Nat.ofDigits 10 (ds.reverse.map Fin.val)

/-- The sign of an exponent. -/
inductive ExponentSign where
  | absent
  | plus
  | minus
deriving DecidableEq, Repr

/-- The exponent of a number. -/
structure Exponent where
  upper : Bool
  sign : ExponentSign
  digits : List (Fin 10)
  nonempty : digits ≠ []

namespace Exponent

def signChars : ExponentSign → List Char
  | .absent => []
  | .plus => ['+']
  | .minus => ['-']

def chars (e : Exponent) : List Char :=
  (if e.upper then 'E' else 'e') :: (signChars e.sign ++ e.digits.map digitChar)

def value (e : Exponent) : Int :=
  if e.sign = .minus then -numeral e.digits else numeral e.digits

end Exponent

/-- A number in its spelling; without fraction digits it has no point. -/
structure NumberText where
  negative : Bool
  whole : List (Fin 10)
  nonempty : whole ≠ []
  /-- A number begins with a zero only if that is all of its whole part. -/
  plain : whole.head? = some 0 → whole = [0]
  fraction : List (Fin 10)
  exponent : Option Exponent

namespace NumberText

def fractionChars (ds : List (Fin 10)) : List Char :=
  if ds = [] then [] else '.' :: ds.map digitChar

def chars (n : NumberText) : List Char :=
  (if n.negative then ['-'] else []) ++ (n.whole.map digitChar ++ (fractionChars n.fraction ++
    (n.exponent.elim [] Exponent.chars)))

def value (n : NumberText) : Json :=
  if n.fraction = [] ∧ n.exponent.isNone then
    .int (if n.negative then -numeral n.whole else numeral n.whole)
  else
    .decimal ⟨n.negative, numeral (n.whole ++ n.fraction),
      n.exponent.elim 0 Exponent.value - n.fraction.length⟩

end NumberText

/-- The values that are written by one token, strings apart. -/
inductive Scalar where
  | null
  | bool (b : Bool)
  | number (n : NumberText)

namespace Scalar

def chars : Scalar → List Char
  | null => "null".toList
  | bool true => "true".toList
  | bool false => "false".toList
  | number n => n.chars

def value : Scalar → Json
  | null => .null
  | bool b => .bool b
  | number n => n.value

end Scalar

/-- The marks of the format. -/
inductive Mark where
  | comma
  | colon
  | openList
  | closeList
  | openObject
  | closeObject
deriving DecidableEq, Repr

namespace Mark

def char : Mark → Char
  | comma => ','
  | colon => ':'
  | openList => '['
  | closeList => ']'
  | openObject => '\x7b'
  | closeObject => '\x7d'

def closes : Mark → Bool
  | closeList | closeObject => true
  | _ => false

end Mark

/-- Tokens. -/
inductive Token where
  | mark (m : Mark)
  | scalar (s : Scalar)
  | literal (s : Literal)

def Token.chars : Token → List Char
  | mark m => [m.char]
  | scalar s => s.chars
  | literal s => s.chars

mutual

/-- A value in its spelling; `dangling` tells that a comma stands before the closing bracket. -/
inductive Doc where
  | scalar (s : Scalar)
  | text (s : Literal)
  | emptyList
  | emptyObject
  | list (items : Items) (dangling : Bool)
  | object (members : Members) (dangling : Bool)

/-- The items of a list, at least one. -/
inductive Items where
  | last (d : Doc)
  | cons (d : Doc) (rest : Items)

/-- The members of an object, at least one. -/
inductive Members where
  | last (key : Literal) (d : Doc)
  | cons (key : Literal) (d : Doc) (rest : Members)

end

mutual

def Doc.value : Doc → Json
  | .scalar s => s.value
  | .text s => .text s.value
  | .emptyList => .list []
  | .emptyObject => .object []
  | .list items _ => .list items.values
  | .object members _ => .object (members.table [])

def Items.values : Items → List Json
  | .last d => [d.value]
  | .cons d rest => d.value :: rest.values

/-- The members put into a table; of two members with one key the later counts, at the place of the
earlier. -/
def Members.table : Members → List (String × Json) → List (String × Json)
  | .last key d, table => Table.put table key.value d.value
  | .cons key d rest, table => rest.table (Table.put table key.value d.value)

end

/-- The comma before a closing bracket, where it is written. -/
def danglingComma (lenient dangling : Bool) : List Token :=
  if lenient && dangling then [.mark .comma] else []

mutual

def Doc.tokens (lenient : Bool) : Doc → List Token
  | .scalar s => [.scalar s]
  | .text s => [.literal s]
  | .emptyList => [.mark .openList, .mark .closeList]
  | .emptyObject => [.mark .openObject, .mark .closeObject]
  | .list items dangling =>
    .mark .openList :: (items.tokens lenient ++ (danglingComma lenient dangling ++ [.mark .closeList]))
  | .object members dangling =>
    .mark .openObject ::
      (members.tokens lenient ++ (danglingComma lenient dangling ++ [.mark .closeObject]))

def Items.tokens (lenient : Bool) : Items → List Token
  | .last d => d.tokens lenient
  | .cons d rest => d.tokens lenient ++ .mark .comma :: rest.tokens lenient

def Members.tokens (lenient : Bool) : Members → List Token
  | .last key d => .literal key :: .mark .colon :: d.tokens lenient
  | .cons key d rest =>
    .literal key :: .mark .colon :: (d.tokens lenient ++ .mark .comma :: rest.tokens lenient)

end

/-- A token, or something between tokens. -/
inductive Lexeme where
  | blank (c : Char) (layout : isLayout c = true)
  /-- A comment up to the end of its line; the line end is not part of it. -/
  | line (body : List Char) (inner : ∀ c ∈ body, c ≠ '\r' ∧ c ≠ '\n')
  | block (body : List Char) (inner : ¬['*', '/'] <:+: body)
  | token (t : Token)

namespace Lexeme

def chars : Lexeme → List Char
  | blank c _ => [c]
  | line body _ => '/' :: '/' :: body
  | block body _ => '/' :: '*' :: (body ++ ['*', '/'])
  | token t => t.chars

def token? : Lexeme → Option Token
  | token t => some t
  | _ => none

def isComment : Lexeme → Bool
  | line _ _ | block _ _ => true
  | _ => false

def breaksLine : Lexeme → Bool
  | blank c _ => c == '\n' || c == '\r'
  | _ => false

end Lexeme

def textOf (xs : List Lexeme) : List Char :=
  xs.flatMap Lexeme.chars

def tokensOf (xs : List Lexeme) : List Token :=
  xs.filterMap Lexeme.token?

def literalsOf (ts : List Token) : List (List Char) :=
  ts.filterMap fun
    | .literal s => some s.chars
    | _ => none

/-- Behind every line comment the line ends, or the text. -/
def LinesEnd : List Lexeme → Prop
  | [] => True
  | .line _ _ :: rest => (∀ x, rest.head? = some x → x.breaksLine = true) ∧ LinesEnd rest
  | _ :: rest => LinesEnd rest

/-- A text of a document: its tokens with its dangling commas, and blanks and comments between them. -/
structure Rendering (d : Doc) where
  lexemes : List Lexeme
  written : tokensOf lexemes = d.tokens true
  linesEnd : LinesEnd lexemes

theorem linesEnd_tokens (ts : List Token) : LinesEnd (ts.map .token) := by
  induction ts with
  | nil => trivial
  | cons t ts ih => exact ih

/-- Every document has a text: its tokens one after the other. -/
instance (d : Doc) : Inhabited (Rendering d) where
  default :=
    { lexemes := (d.tokens true).map .token
      written := by simp [tokensOf, filterMap_map, Function.comp_def, Lexeme.token?]
      linesEnd := linesEnd_tokens _ }

def Rendering.text {d : Doc} (r : Rendering d) : String :=
  ofList (textOf r.lexemes)

/-- No lexeme is a comment. -/
def Plain (xs : List Lexeme) : Prop :=
  ∀ x ∈ xs, x.isComment = false

/-- A strict text of a document: its tokens without dangling commas, and only blanks between them. -/
structure StrictRendering (d : Doc) where
  lexemes : List Lexeme
  written : tokensOf lexemes = d.tokens false
  plain : Plain lexemes

def StrictRendering.text {d : Doc} (r : StrictRendering d) : String :=
  ofList (textOf r.lexemes)

section Lexemes

variable (x : Lexeme) (xs ys : List Lexeme)

@[simp] theorem textOf_nil : textOf [] = [] :=
  rfl

@[simp] theorem textOf_cons : textOf (x :: xs) = x.chars ++ textOf xs :=
  flatMap_cons

@[simp] theorem textOf_append : textOf (xs ++ ys) = textOf xs ++ textOf ys :=
  flatMap_append

@[simp] theorem tokensOf_append : tokensOf (xs ++ ys) = tokensOf xs ++ tokensOf ys :=
  filterMap_append

end Lexemes

def Token.opens : Token → Prop
  | .mark m => m = .openList ∨ m = .openObject
  | _ => True

theorem Doc.exists_head (d : Doc) (lenient : Bool) :
    ∃ t ts, d.tokens lenient = t :: ts ∧ t.opens := by
  cases d with
  | scalar s => exact ⟨_, _, rfl, trivial⟩
  | text s => exact ⟨_, _, rfl, trivial⟩
  | emptyList | list items dangling => exact ⟨_, _, rfl, Or.inl rfl⟩
  | emptyObject | object members dangling => exact ⟨_, _, rfl, Or.inr rfl⟩

theorem Items.exists_head (items : Items) (lenient : Bool) :
    ∃ t ts, items.tokens lenient = t :: ts ∧ t.opens := by
  cases items with
  | last d => exact d.exists_head lenient
  | cons d rest =>
    obtain ⟨t, ts, split, opens⟩ := d.exists_head lenient
    exact ⟨t, ts ++ .mark .comma :: rest.tokens lenient, by rw [Items.tokens, split]; rfl, opens⟩

theorem Members.exists_head (members : Members) (lenient : Bool) :
    ∃ t ts, members.tokens lenient = t :: ts ∧ t.opens := by
  cases members <;> exact ⟨_, _, rfl, trivial⟩

/-- The first character of a token is no blank and no slash, and the first of a value is no closing
bracket. -/
theorem Token.exists_char (t : Token) :
    ∃ c, t.chars.head? = some c ∧ Text.isBlank c = false ∧ c ≠ '/' ∧
      (t.opens → c ≠ ']' ∧ c ≠ '\x7d') := by
  have digit : ∀ d : Fin 10, Text.isBlank (digitChar d) = false ∧ digitChar d ≠ '/' ∧
      digitChar d ≠ ']' ∧ digitChar d ≠ '\x7d' := by decide
  cases t with
  | mark m =>
    exact ⟨m.char, rfl, by cases m <;> decide, by cases m <;> decide, by rintro (rfl | rfl) <;> decide⟩
  | literal s => exact ⟨'"', rfl, by decide, by decide, fun _ => by decide⟩
  | scalar s =>
    cases s with
    | null => exact ⟨'n', rfl, by decide, by decide, fun _ => by decide⟩
    | bool b => cases b <;> exact ⟨_, rfl, by decide, by decide, fun _ => by decide⟩
    | number n =>
      obtain ⟨d, ds, split⟩ := exists_cons_of_ne_nil n.nonempty
      obtain ⟨blank, slash, close⟩ := digit d
      cases sign : n.negative with
      | true =>
        have head : n.chars.head? = some '-' := by simp [NumberText.chars, sign]
        exact ⟨'-', head, by decide, by decide, fun _ => by decide⟩
      | false =>
        have head : n.chars.head? = some (digitChar d) := by simp [NumberText.chars, sign, split]
        exact ⟨digitChar d, head, blank, slash, fun _ => close⟩

end VhdlWorkbench.Json

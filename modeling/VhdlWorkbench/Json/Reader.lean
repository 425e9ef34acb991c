import VhdlWorkbench.Json.Basic
import VhdlWorkbench.Text.Digit
import VhdlWorkbench.Table

/-!
Reading JSON texts. Of two members with one key the later value counts, at the place of the earlier.
-/

namespace VhdlWorkbench.Json

def isLayout (c : Char) : Bool :=
  c == ' ' || c == '\t' || c == '\n' || c == '\r'

def skipLayout (cs : List Char) : List Char :=
  cs.dropWhile isLayout

def hexDigit? (c : Char) : Option Nat :=
  if c.toNat < 128 then Text.hexValue? c else none

def readUnit? : List Char → Option (Nat × List Char)
  | a :: b :: c :: d :: rest => do
    let a ← hexDigit? a
    let b ← hexDigit? b
    let c ← hexDigit? c
    let d ← hexDigit? d
    return (((a * 16 + b) * 16 + c) * 16 + d, rest)
  | _ => none

/-- The character of a code unit; half of a pair that stands alone becomes the replacement
character. -/
def unitChar (n : Nat) : Char :=
  if 0xD800 ≤ n && n < 0xE000 then '�' else Char.ofNat n

/-- The character of a `\u` escape, whose digits come next; two escapes may write one character. -/
def readUnitEscape? (cs : List Char) : Option (Char × List Char) := do
  let (high, rest) ← readUnit? cs
  if 0xD800 ≤ high && high < 0xDC00 then
    match rest with
    | '\\' :: 'u' :: more =>
      match readUnit? more with
      | some (low, after) =>
        if 0xDC00 ≤ low && low < 0xE000 then
          return (Char.ofNat (0x10000 + (high - 0xD800) * 1024 + (low - 0xDC00)), after)
        else return (unitChar high, rest)
      | none => return (unitChar high, rest)
    | _ => return (unitChar high, rest)
  else return (unitChar high, rest)

/-- The character that a letter behind a backslash stands for. -/
def escapeLetter? (c : Char) : Option Char :=
  [('"', '"'), ('\\', '\\'), ('/', '/'), ('b', '\x08'), ('f', '\x0c'), ('n', '\n'), ('r', '\r'),
    ('t', '\t')].lookup c

/-- The rest of a string behind its opening quote; `body` is what has been read, reversed. -/
def readString? : Nat → List Char → List Char → Option (String × List Char)
  | 0, _, _ => none
  | _ + 1, _, [] => none
  | fuel + 1, body, c :: rest =>
    if c == '"' then some (String.ofList body.reverse, rest)
    else if c == '\\' then
      match rest with
      | [] => none
      | 'u' :: rest =>
        match readUnitEscape? rest with
        | none => none
        | some (d, rest) => readString? fuel (d :: body) rest
      | d :: rest =>
        match escapeLetter? d with
        | none => none
        | some e => readString? fuel (e :: body) rest
    else if c.toNat < 32 then none
    else readString? fuel (c :: body) rest

def decimalNumeral (digits : List Char) : Nat :=
  digits.foldl (fun n c => n * 10 + (c.toNat - 48)) 0

def readExponent (cs : List Char) : Option Int × List Char :=
  let digitsOf (negative : Bool) (rest : List Char) : Option Int × List Char :=
    let digits := rest.takeWhile Char.isDigit
    if digits.isEmpty then (none, cs)
    else
      let n : Int := decimalNumeral digits
      (some (if negative then -n else n), rest.drop digits.length)
  match cs with
  | c :: rest =>
    if c == 'e' || c == 'E' then
      match rest with
      | '-' :: rest => digitsOf true rest
      | '+' :: rest => digitsOf false rest
      | _ => digitsOf false rest
    else (none, cs)
  | [] => (none, cs)

def readFraction (cs : List Char) : List Char × List Char :=
  match cs with
  | '.' :: rest =>
    let digits := rest.takeWhile Char.isDigit
    if digits.isEmpty then ([], cs) else (digits, rest.drop digits.length)
  | _ => ([], cs)

def readNumber? (cs : List Char) : Option (Json × List Char) :=
  let (negative, rest) :=
    match cs with
    | '-' :: rest => (true, rest)
    | _ => (false, cs)
  let run := rest.takeWhile Char.isDigit
  let whole := if run.head? == some '0' then ['0'] else run
  if whole.isEmpty then none
  else
    let rest := rest.drop whole.length
    let (fraction, rest) := readFraction rest
    let (exponent, rest) := readExponent rest
    let digits := decimalNumeral (whole ++ fraction)
    if fraction.isEmpty && exponent.isNone then
      some (.int (if negative then -(digits : Int) else digits), rest)
    else
      some (.decimal ⟨negative, digits, exponent.getD 0 - fraction.length⟩, rest)

def expectWord? (word : String) (value : Json) (cs : List Char) : Option (Json × List Char) :=
  if word.toList.isPrefixOf cs then some (value, cs.drop word.length) else none

mutual

def readValue? : Nat → List Char → Option (Json × List Char)
  | 0, _ => none
  | fuel + 1, cs =>
    match cs with
    | '"' :: rest => (readString? (rest.length + 1) [] rest).map fun (s, rest) => (.text s, rest)
    | '\x7b' :: rest =>
      match skipLayout rest with
      | '\x7d' :: rest => some (.object [], rest)
      | rest => readMembers? fuel [] rest
    | '[' :: rest =>
      match skipLayout rest with
      | ']' :: rest => some (.list [], rest)
      | rest => readItems? fuel [] rest
    | 'n' :: _ => expectWord? "null" .null cs
    | 't' :: _ => expectWord? "true" (.bool true) cs
    | 'f' :: _ => expectWord? "false" (.bool false) cs
    | 'N' :: _ => expectWord? "NaN" (.nonfinite (0.0 / 0.0)) cs
    | 'I' :: _ => expectWord? "Infinity" (.nonfinite (1.0 / 0.0)) cs
    | '-' :: 'I' :: _ => expectWord? "-Infinity" (.nonfinite (-1.0 / 0.0)) cs
    | _ => readNumber? cs

/-- The items of a list and its end; `items` holds those read so far, reversed. -/
def readItems? : Nat → List Json → List Char → Option (Json × List Char)
  | 0, _, _ => none
  | fuel + 1, items, cs =>
    match readValue? fuel cs with
    | none => none
    | some (item, rest) =>
      match skipLayout rest with
      | ',' :: rest => readItems? fuel (item :: items) (skipLayout rest)
      | ']' :: rest => some (.list (item :: items).reverse, rest)
      | _ => none

def readMembers? : Nat → List (String × Json) → List Char → Option (Json × List Char)
  | 0, _, _ => none
  | fuel + 1, members, cs =>
    match cs with
    | '"' :: rest =>
      match readString? (rest.length + 1) [] rest with
      | none => none
      | some (key, rest) =>
        match skipLayout rest with
        | ':' :: rest =>
          match readValue? fuel (skipLayout rest) with
          | none => none
          | some (value, rest) =>
            let members := Table.put members key value
            match skipLayout rest with
            | ',' :: rest => readMembers? fuel members (skipLayout rest)
            | '\x7d' :: rest => some (.object members, rest)
            | _ => none
        | _ => none
    | _ => none

end

def parse? (text : String) : Option Json :=
  let cs := text.toList
  match readValue? (2 * cs.length + 2) (skipLayout cs) with
  | none => none
  | some (value, rest) => if (skipLayout rest).isEmpty then some value else none

end VhdlWorkbench.Json

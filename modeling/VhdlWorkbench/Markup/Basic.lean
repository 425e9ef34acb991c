import VhdlWorkbench.Fault

/-!
Markup documents as sequences of events. Reading gives the events up to the place where the document is not well
formed, and what is wrong there. Declarations of entities are refused.
-/

namespace VhdlWorkbench.Markup

inductive Event where
  | opening (name : String)
  | text (s : String)
  | closing (name : String)
deriving DecidableEq, Repr

def isSpace (c : Char) : Bool :=
  c == ' ' || c == '\t' || c == '\n' || c == '\r'

def isAllowed (c : Char) : Bool :=
  (32 ≤ c.toNat || isSpace c) && c.toNat != 0xFFFE && c.toNat != 0xFFFF

def beginsName (c : Char) : Bool :=
  c.isAlpha || c == '_' || c == ':' || (128 ≤ c.toNat && Text.isAlphanumeric c)

def isNameChar (c : Char) : Bool :=
  beginsName c || c.isDigit || c == '-' || c == '.' || c.toNat == 0xB7

def skipSpace (cs : List Char) : List Char :=
  cs.dropWhile isSpace

def readName? : List Char → Option (String × List Char)
  | [] => none
  | c :: rest =>
    if beginsName c then
      some (String.ofList (c :: rest.takeWhile isNameChar), rest.dropWhile isNameChar)
    else none

def after? (expected : String) (cs : List Char) : Option (List Char) :=
  if expected.toList.isPrefixOf cs then some (cs.drop expected.length) else none

/-- The characters before the first `mark`, and those behind it. -/
def splitAtMark? (mark : List Char) : List Char → Option (List Char × List Char)
  | [] => if mark.isEmpty then some ([], []) else none
  | c :: rest =>
    if mark.isPrefixOf (c :: rest) then some ([], (c :: rest).drop mark.length)
    else (splitAtMark? mark rest).map fun (before, behind) => (c :: before, behind)

def digitsValue? (base : Nat) (cs : List Char) : Option Nat :=
  if cs.isEmpty then none
  else cs.foldlM (fun n c =>
    let d :=
      if c.isDigit then some (c.toNat - 48)
      else if 'a' ≤ c && c ≤ 'f' then some (c.toNat - 87)
      else if 'A' ≤ c && c ≤ 'F' then some (c.toNat - 55)
      else none
    match d with
    | some d => if d < base then some (n * base + d) else none
    | none => none) 0

/-- The character of a number, if the number is that of a character that may stand in a document. -/
def characterOf? (n : Nat) : Option Char :=
  if n.isValidChar && isAllowed (Char.ofNat n) then some (Char.ofNat n) else none

def knownEntities : List (String × Char) :=
  [("lt", '<'), ("gt", '>'), ("amp", '&'), ("apos", '\x27'), ("quot", '"')]

/-- The text of a reference, behind its ampersand, and what follows. -/
def readReference? (skipUnknown : Bool) (cs : List Char) : Option (List Char × List Char) :=
  match cs with
  | '#' :: 'x' :: rest =>
    (splitAtMark? [';'] rest).bind fun (digits, rest) =>
      ((digitsValue? 16 digits).bind characterOf?).map fun c => ([c], rest)
  | '#' :: rest =>
    (splitAtMark? [';'] rest).bind fun (digits, rest) =>
      ((digitsValue? 10 digits).bind characterOf?).map fun c => ([c], rest)
  | _ =>
    match readName? cs with
    | some (name, ';' :: rest) =>
      match knownEntities.lookup name with
      | some c => some ([c], rest)
      | none => if skipUnknown then some ([], rest) else none
    | _ => none

/-- Text up to the next tag; `]]>` may not stand in it. -/
def readText? (skipUnknown : Bool) : Nat → List Char → Option (List Char × List Char)
  | 0, _ => none
  | fuel + 1, cs =>
    match cs with
    | [] => some ([], [])
    | '<' :: _ => some ([], cs)
    | '&' :: rest =>
      (readReference? skipUnknown rest).bind fun (chars, rest) =>
        (readText? skipUnknown fuel rest).map fun (more, rest) => (chars ++ more, rest)
    | ']' :: ']' :: '>' :: _ => none
    | '\r' :: '\n' :: rest =>
      (readText? skipUnknown fuel rest).map fun (more, rest) => ('\n' :: more, rest)
    | c :: rest =>
      if isAllowed c then
        (readText? skipUnknown fuel rest).map fun (more, rest) =>
          ((if c == '\r' then '\n' else c) :: more, rest)
      else none

/-- The value of an attribute up to its quote is well formed; what follows the quote. -/
def skipValue? (skipUnknown : Bool) (quote : Char) : Nat → List Char → Option (List Char)
  | 0, _ => none
  | fuel + 1, cs =>
    match cs with
    | [] => none
    | c :: rest =>
      if c == quote then some rest
      else if c == '&' then
        (readReference? skipUnknown rest).bind fun (_, rest) => skipValue? skipUnknown quote fuel rest
      else if c == '<' || !isAllowed c then none
      else skipValue? skipUnknown quote fuel rest

/-- The end of an opening tag: whether it also closes the element, and what follows. The attributes
before it have different names. -/
def readTagEnd? (skipUnknown : Bool) : Nat → List String → List Char → Option (Bool × List Char)
  | 0, _, _ => none
  | fuel + 1, seen, cs =>
    match cs with
    | '>' :: rest => some (false, rest)
    | '/' :: '>' :: rest => some (true, rest)
    | c :: _ =>
      if isSpace c then
        match skipSpace cs with
        | '>' :: rest => some (false, rest)
        | '/' :: '>' :: rest => some (true, rest)
        | rest =>
          match readName? rest with
          | none => none
          | some (name, rest) =>
            if seen.contains name then none
            else match skipSpace rest with
              | '=' :: rest =>
                match skipSpace rest with
                | quote :: rest =>
                  if quote == '"' || quote == '\x27' then
                    (skipValue? skipUnknown quote (rest.length + 1) rest).bind fun rest =>
                      readTagEnd? skipUnknown fuel (name :: seen) rest
                  else none
                | [] => none
              | _ => none
      else none
    | [] => none

/-- What follows a comment, behind its opening mark; two dashes may only end it. -/
def skipComment? (cs : List Char) : Option (List Char) :=
  (splitAtMark? ['-', '-'] cs).bind fun (body, rest) =>
    match rest with
    | '>' :: rest => if body.all isAllowed then some rest else none
    | _ => none

def skipInstruction? (cs : List Char) : Option (List Char) :=
  match readName? cs with
  | none => none
  | some (name, rest) =>
    if name.toLower == "xml" then none
    else match rest with
      | '?' :: '>' :: rest => some rest
      | c :: _ =>
        if isSpace c then
          (splitAtMark? ['?', '>'] rest).bind fun (body, rest) =>
            if body.all isAllowed then some rest else none
        else none
      | [] => none

/-- Character data up to its end mark, with one line feed for every line end. -/
def plainText : List Char → List Char
  | [] => []
  | '\r' :: '\n' :: rest => '\n' :: plainText rest
  | '\r' :: rest => '\n' :: plainText rest
  | c :: rest => c :: plainText rest

def readQuoted? : List Char → Option (String × List Char)
  | quote :: rest =>
    if quote == '"' || quote == '\x27' then
      (splitAtMark? [quote] rest).map fun (body, rest) => (String.ofList body, rest)
    else none
  | [] => none

def readPart? (name : String) (cs : List Char) : Option (String × List Char) :=
  match cs with
  | c :: _ =>
    if isSpace c then
      (after? name (skipSpace cs)).bind fun rest =>
        match skipSpace rest with
        | '=' :: rest => readQuoted? (skipSpace rest)
        | _ => none
    else none
  | [] => none

/-- A value of the declaration is made of letters, digits, dots, dashes and underscores. -/
def isPlainValue (s : String) : Bool :=
  !s.isEmpty && s.toList.all fun c => c.isAlphanum || c == '.' || c == '-' || c == '_'

def skipDeclaration? (cs : List Char) : Option (List Char) := do
  let (version, rest) ← readPart? "version" cs
  if !isPlainValue version then none
  let rest ← match readPart? "encoding" rest with
    | some (encoding, rest) =>
      if isPlainValue encoding && !encoding.toLower.startsWith "utf-16" then some rest else none
    | none => some rest
  let rest ← match readPart? "standalone" rest with
    | some (value, rest) => if value == "yes" || value == "no" then some rest else none
    | none => some rest
  after? "?>" (skipSpace rest)

def isPublicChar (c : Char) : Bool :=
  c.isAlphanum || " \r\n-\x27()+,./:=?;!*#@$_%".toList.contains c

/-- A quoted literal of allowed characters with blanks before it is skipped. -/
def skipLiteral? (allowed : Char → Bool) (cs : List Char) : Option (List Char) :=
  match cs with
  | c :: _ =>
    if isSpace c then
      (readQuoted? (skipSpace cs)).bind fun (body, rest) =>
        if body.toList.all allowed then some rest else none
    else none
  | [] => none

/-- The declarations inside a document type up to the closing bracket. -/
def splitInside? (cs : List Char) : Option (List Char × List Char) :=
  splitAtMark? [']'] cs

/-- The document type behind its opening mark: whether it names an outside one, and what follows. -/
def skipDocumentType (cs : List Char) : Except Fault (Bool × List Char) := do
  let orBad {α : Type} (a : Option α) : Except Fault α := match a with
    | some a => .ok a
    | none => .error .badMarkup
  if cs.takeWhile isSpace == [] then throw .badMarkup
  let (_, rest) ← orBad (readName? (skipSpace cs))
  let (outside, rest) ←
    match after? "SYSTEM" (skipSpace rest), after? "PUBLIC" (skipSpace rest) with
    | some rest, _ => do pure (true, ← orBad (skipLiteral? isAllowed rest))
    | none, some rest => do pure (true, ← orBad ((skipLiteral? isPublicChar rest).bind (skipLiteral? isAllowed)))
    | none, none => pure (false, rest)
  match skipSpace rest with
  | '>' :: rest => return (outside, rest)
  | '[' :: rest =>
    let (inside, rest) ← orBad (splitInside? rest)
    if (splitAtMark? "<!ENTITY".toList inside).isSome then throw .notPropertyList
    match skipSpace rest with
    | '>' :: rest => return (outside, rest)
    | _ => throw .badMarkup
  | _ => throw .badMarkup

inductive Place where
  | before
  | inside (first : String) (rest : List String)
  | behind
deriving DecidableEq, Repr

def Place.leave : List String → Place
  | [] => .behind
  | first :: rest => .inside first rest

def Place.elements : Place → List String
  | .inside first rest => first :: rest
  | _ => []

def eventsFrom : Nat → Bool → Bool → Place → List Char → List Event × Option Fault
  | 0, _, _, _, _ => ([], some .badMarkup)
  | fuel + 1, skipUnknown, typed, place, cs =>
    let bad : List Event × Option Fault := ([], some .badMarkup)
    let more (es : List Event) (place : Place) (rest : List Char) : List Event × Option Fault :=
      let (events, fault) := eventsFrom fuel skipUnknown typed place rest
      (es ++ events, fault)
    match cs with
    | [] => if place = .behind then ([], none) else bad
    | '<' :: '!' :: '-' :: '-' :: rest =>
      match skipComment? rest with
      | some rest => more [] place rest
      | none => bad
    | '<' :: '?' :: rest =>
      match skipInstruction? rest with
      | some rest => more [] place rest
      | none => bad
    | '<' :: '!' :: '[' :: rest =>
      match place, after? "CDATA[" rest with
      | .inside _ _, some rest =>
        match splitAtMark? [']', ']', '>'] rest with
        | some (body, rest) =>
          if body.all isAllowed then more [.text (String.ofList (plainText body))] place rest else bad
        | none => bad
      | _, _ => bad
    | '<' :: '!' :: rest =>
      match place, typed, after? "DOCTYPE" rest with
      | .before, false, some rest =>
        match skipDocumentType rest with
        | .ok (outside, rest) => eventsFrom fuel outside true place rest
        | .error f => ([], some f)
      | _, _, _ => bad
    | '<' :: '/' :: rest =>
      match place, readName? rest with
      | .inside first others, some (name, rest) =>
        match skipSpace rest with
        | '>' :: rest =>
          if name == first then more [.closing name] (Place.leave others) rest else bad
        | _ => bad
      | _, _ => bad
    | '<' :: rest =>
      match place, readName? rest with
      | .behind, _ => bad
      | _, none => bad
      | _, some (name, rest) =>
        match readTagEnd? skipUnknown (rest.length + 1) [] rest with
        | some (true, rest) =>
          more [.opening name, .closing name]
            (match place with
              | .before => .behind
              | place => place) rest
        | some (false, rest) => more [.opening name] (.inside name place.elements) rest
        | none => bad
    | c :: rest =>
      match place with
      | .inside _ _ =>
        match readText? skipUnknown (cs.length + 1) cs with
        | some (text, rest) => more [.text (String.ofList text)] place rest
        | none => bad
      | _ => if isSpace c then more [] place rest else bad

def events (document : String) : List Event × Option Fault :=
  let cs := match document.toList with
    | '\uFEFF' :: rest => rest
    | cs => cs
  let fuel := cs.length + 1
  match after? "<?xml" cs with
  | some rest =>
    match rest with
    | c :: _ =>
      if isSpace c then
        match skipDeclaration? rest with
        | some rest => eventsFrom fuel false false .before rest
        | none => ([], some .badMarkup)
      else eventsFrom fuel false false .before cs
    | [] => ([], some .badMarkup)
  | none => eventsFrom fuel false false .before cs

end VhdlWorkbench.Markup

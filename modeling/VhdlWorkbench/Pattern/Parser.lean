import VhdlWorkbench.Pattern.Basic
import VhdlWorkbench.Text.CharName
import VhdlWorkbench.Text.Identifier
import VhdlWorkbench.Text.Integer

/-!
Reading the written form of a pattern. Every malformed pattern is refused with its cause; some causes count only when
the whole pattern has been read. Each round of the item reader takes at least one character, which bounds the fuel.
-/

namespace VhdlWorkbench.Pattern

inductive PatternError where
  | unexpectedEnd
  | unbalancedGroup
  | unterminatedSet
  | nothingToRepeat
  | multipleRepeat
  | repeatBounds
  | repeatTooLarge
  | tooManyDigits
  | badEscape
  | unknownCharacter
  | badRange
  | unknownExtension
  | badGroupName
  | groupRedefined
  | unknownGroup
  | openGroup
  | badOptions
  | misplacedOptions
  | conflictingOptions
  | forbiddenRepeat
  | tooManyBranches
  | unboundedLookBehind
  | nestedTooDeep
deriving DecidableEq, Repr

structure Reader where
  rest : List Char
  /-- The slot of the next captured group. -/
  next : Nat := 1
  names : List (String × Nat) := []
  /-- The groups that have not been closed yet. -/
  opened : List Nat := []
  /-- The options of the whole pattern. -/
  options : Options := {}
  /-- Slots tested by a condition, which have to exist at the end. -/
  tested : List Nat := []
  /-- The number of groups before the look-behind that is being read. -/
  behindFrom : Option Nat := none
  /-- The smallest and the largest width of each closed group. -/
  widths : List (Nat × Nat × Option Nat) := []
  repeats : Bool := false
  unbounded : Bool := false
  depth : Nat := 0

abbrev Read (α : Type) := StateT Reader (Except PatternError) α

/-- The smallest and the largest number of characters that a pattern consumes, with the widths of the
groups that are referred to. -/
def Node.width (groups : List (Nat × Nat × Option Nat)) : Node → Nat × Option Nat
  | .empty | .anchor _ | .look _ _ _ => (0, some 0)
  | .one _ => (1, some 1)
  | .run _ lo hi _ => (lo, hi)
  | .seq a b =>
    let (lo, hi) := a.width groups
    let (lo', hi') := b.width groups
    (lo + lo', hi.bind fun h => hi'.map (h + ·))
  | .alt a b | .whenSet _ a b =>
    let (lo, hi) := a.width groups
    let (lo', hi') := b.width groups
    (min lo lo', hi.bind fun h => hi'.map (max h ·))
  | .rep body lo hi _ =>
    let (lo', hi') := body.width groups
    (lo * lo', if hi == some 0 || hi' == some 0 then some 0 else hi.bind fun h => hi'.map (h * ·))
  | .capture _ _ body | .group body | .scoped _ _ body | .atomic body => body.width groups
  | .ref slot => ((groups.lookup slot).getD (0, none))
  | .pasted text => (text.length, some text.length)

def take? : Read (Option Char) := do
  let r ← get
  match r.rest with
  | [] => return none
  | c :: rest =>
    set { r with rest := rest }
    return some c

def peek? : Read (Option Char) := do
  return (← get).rest.head?

def accept (c : Char) : Read Bool := do
  let r ← get
  match r.rest with
  | d :: rest =>
    if c == d then
      set { r with rest := rest }
      return true
    else return false
  | [] => return false

/-- Takes at most `limit` characters that satisfy a test. -/
def takeWhileUpTo (limit : Nat) (test : Char → Bool) : Read (List Char) := do
  let r ← get
  let taken := (r.rest.take limit).takeWhile test
  set { r with rest := r.rest.drop taken.length }
  return taken

/-- Takes the characters up to an end mark, and the mark. At least one character has to precede it. -/
def takeUntil (mark : Char) : Read (List Char) := do
  let r ← get
  let taken := r.rest.takeWhile (· != mark)
  match r.rest.drop taken.length with
  | [] => throw .badGroupName
  | _ :: rest =>
    set { r with rest := rest }
    if taken.isEmpty then throw .badGroupName
    return taken

def isOctal (c : Char) : Bool :=
  '0' ≤ c && c ≤ '7'

def isAsciiHex (c : Char) : Bool :=
  c.isDigit || ('a' ≤ c && c ≤ 'f') || ('A' ≤ c && c ≤ 'F')

def numeral (base : Nat) (digits : List Char) : Nat :=
  digits.foldl (fun n c => n * base + (Text.hexValue? c).getD 0) 0

def maxGroups : Nat :=
  1073741823

def Reader.closed (r : Reader) (slot : Nat) : Bool :=
  slot < r.next && !r.opened.contains slot

/-- Inside a look-behind only groups that were closed before it may be named. -/
def checkBehind (slot : Nat) : Read Unit := do
  let r ← get
  match r.behindFrom with
  | some before => if before ≤ slot || !r.closed slot then throw .openGroup
  | none => pure ()

def refer (slot : Nat) : Read Node := do
  let r ← get
  if r.next ≤ slot then throw .unknownGroup
  unless r.closed slot do throw .openGroup
  checkBehind slot
  return .ref slot

/-- A member of a set as it is read: a code point, which may begin a range, or a class. -/
inductive Member where
  | code (n : Nat)
  | category (negated : Bool) (k : Category)
deriving DecidableEq, Repr

/-- The characters between two code points. The surrogates stand in no text, so that a range of them is
empty. -/
def codesBetween (lo hi : Nat) : SetItem :=
  let surrogate (n : Nat) : Bool := 0xd800 ≤ n && n ≤ 0xdfff
  .range (Char.ofNat (if surrogate lo then 0xe000 else lo))
    (Char.ofNat (if surrogate hi then 0xd7ff else hi))

def Member.item : Member → SetItem
  | .code n => if n.isValidChar then .char (Char.ofNat n) else codesBetween n n
  | .category negated k => .category negated k

def ofCode (n : Nat) : Single :=
  if n.isValidChar then .char (Char.ofNat n) else .set false [codesBetween n n]

def hexEscape (count : Nat) : Read Nat := do
  let digits ← takeWhileUpTo count isAsciiHex
  let n := numeral 16 digits
  if digits.length != count || 0x110000 ≤ n then throw .badEscape
  return n

def namedEscape : Read Nat := do
  unless ← accept '\x7b' do throw .badEscape
  match Text.charNamed? (← takeUntil '\x7d') with
  | some n => return n
  | none => throw .unknownCharacter

def controlEscape? (c : Char) : Option Char :=
  [('a', '\x07'), ('f', '\x0c'), ('n', '\n'), ('r', '\r'), ('t', '\t'), ('v', '\x0b'),
    ('\\', '\\')].lookup c

/-- The class that a letter behind a backslash stands for, and whether it is the complement. -/
def categoryEscape? (c : Char) : Option (Bool × Category) :=
  [('d', false, .digit), ('D', true, .digit), ('s', false, .space), ('S', true, .space),
    ('w', false, .word), ('W', true, .word)].lookup c

def readEscape : Read Node := do
  match ← take? with
  | none => throw .badEscape
  | some c =>
    if let some (negated, k) := categoryEscape? c then return .one (.category negated k)
    if let some d := controlEscape? c then return .one (.char d)
    match c with
    | 'A' => return .anchor .textStart
    | 'Z' => return .anchor .textEnd
    | 'b' => return .anchor .wordEdge
    | 'B' => return .anchor .noWordEdge
    | 'x' => return .one (ofCode (← hexEscape 2))
    | 'u' => return .one (ofCode (← hexEscape 4))
    | 'U' => return .one (ofCode (← hexEscape 8))
    | 'N' => return .one (ofCode (← namedEscape))
    | '0' =>
      let digits ← takeWhileUpTo 2 isOctal
      return .one (.char (Char.ofNat (numeral 8 digits)))
    | _ =>
      if c.isDigit then
        let second ← takeWhileUpTo 1 Char.isDigit
        match second with
        | [d] =>
          if isOctal c && isOctal d then
            match ← takeWhileUpTo 1 isOctal with
            | [e] =>
              let n := numeral 8 [c, d, e]
              if 255 < n then throw .badEscape
              return .one (.char (Char.ofNat n))
            | _ => refer (numeral 10 [c, d])
          else refer (numeral 10 [c, d])
        | _ => refer (numeral 10 [c])
      else if c.isAlpha then throw .badEscape
      else return .one (.char c)

def readSetEscape : Read Member := do
  match ← take? with
  | none => throw .badEscape
  | some c =>
    if let some d := controlEscape? c then return .code d.toNat
    if let some (negated, k) := categoryEscape? c then return .category negated k
    match c with
    | 'b' => return .code 8
    | 'x' => return .code (← hexEscape 2)
    | 'u' => return .code (← hexEscape 4)
    | 'U' => return .code (← hexEscape 8)
    | 'N' => return .code (← namedEscape)
    | _ =>
      if isOctal c then
        let digits ← takeWhileUpTo 2 isOctal
        let n := numeral 8 (c :: digits)
        if 255 < n then throw .badEscape
        return .code n
      else if c.isAlphanum then throw .badEscape
      else return .code c.toNat

def readMember (c : Char) : Read Member :=
  if c == '\\' then readSetEscape else return .code c.toNat

/-- The members of a set after its opening bracket and complement mark, and the closing bracket. A
closing bracket that comes first is a member; `items` holds what has been read, reversed. -/
def readSet : Nat → Bool → List SetItem → Read (List SetItem)
  | 0, _, _ => throw .unterminatedSet
  | fuel + 1, first, items => do
    match ← take? with
    | none => throw .unterminatedSet
    | some c =>
      if c == ']' && !first then return items.reverse
      let member ← readMember c
      if ← accept '-' then
        match ← take? with
        | none => throw .unterminatedSet
        | some d =>
          if d == ']' then return (.char '-' :: member.item :: items).reverse
          match member, ← readMember d with
          | .code lo, .code hi =>
            if hi < lo then throw .badRange
            readSet fuel false (codesBetween lo hi :: items)
          | _, _ => throw .badRange
      else readSet fuel false (member.item :: items)

/-- The pattern of a set; a set with one character is that character. -/
def ofMembers (negated : Bool) (items : List SetItem) : Single :=
  match negated, items.eraseDups with
  | false, [.char c] => .char c
  | _, items => .set negated items

def isOptionLetter (c : Char) : Bool :=
  ['i', 'L', 'm', 's', 'x', 'a', 't', 'u'].contains c

def optionsOf (letters : List Char) : Options where
  ignoreCase := letters.contains 'i'
  dotAll := letters.contains 's'
  multiline := letters.contains 'm'
  verbose := letters.contains 'x'
  ascii := letters.contains 'a'
  unicode := letters.contains 'u'
  noRepeats := letters.contains 't'

def takeOptionLetters : Read (List Char) := do
  takeWhileUpTo (← get).rest.length isOptionLetter

/-- The digits of the bounds of a repetition after its opening brace, if they are well formed, and what
follows the closing brace. -/
def bracedBounds? (rest : List Char) : Option (List Char × List Char × List Char) :=
  let lo := rest.takeWhile Char.isDigit
  match rest.drop lo.length with
  | ',' :: more =>
    let hi := more.takeWhile Char.isDigit
    match more.drop hi.length with
    | '\x7d' :: rest => some (lo, hi, rest)
    | _ => none
  | '\x7d' :: rest => if lo.isEmpty then none else some (lo, lo, rest)
  | _ => none

def repeatLimit : Nat :=
  4294967295

def readBound (digits : List Char) : Read (Option Nat) := do
  if digits.isEmpty then return none
  if Text.maxDigits < digits.length then throw .tooManyDigits
  let n := numeral 10 digits
  if repeatLimit ≤ n then throw .repeatTooLarge
  return some n

/-- Wraps an item into a repetition; a repeated single character is kept as a run. -/
def repetition (item : Node) (lo : Nat) (hi : Option Nat) (greed : Greed) : Node :=
  match item with
  | .one s | .group (.one s) => .run s lo hi greed
  | _ => .rep item lo hi greed

def readGreed : Read Greed := do
  if ← accept '?' then return .lazy
  if ← accept '+' then return .possessive
  return .greedy

/-- Repeats the last item read; `items` is reversed. -/
def repeatLast (items : List Node) (lo : Nat) (hi : Option Nat) : Read (List Node) := do
  modify fun r => { r with repeats := true }
  match items with
  | [] => throw .nothingToRepeat
  | .anchor _ :: _ => throw .nothingToRepeat
  | .run _ _ _ _ :: _ | .rep _ _ _ _ :: _ => throw .multipleRepeat
  | item :: items => return repetition item lo hi (← readGreed) :: items

def isLayout (c : Char) : Bool :=
  [' ', '\t', '\n', '\r', '\x0b', '\x0c'].contains c

def openGroup (name : Option String) : Read Nat := do
  let r ← get
  match name with
  | some n => if (r.names.lookup n).isSome then throw .groupRedefined
  | none => pure ()
  set { r with
    next := r.next + 1
    names := match name with
      | some n => r.names ++ [(n, r.next)]
      | none => r.names
    opened := r.next :: r.opened }
  return r.next

def closeGroup (slot : Nat) (body : Node) : Read Unit :=
  modify fun r =>
    { r with opened := r.opened.erase slot, widths := (slot, body.width r.widths) :: r.widths }

def closing : Read Unit := do
  unless ← accept ')' do throw .unbalancedGroup

/-- What opens a group behind its parenthesis. -/
inductive Opening where
  | capture (name : Option String)
  | plain
  | atomic
  | scoped (on off : Options)
  | look (behind negated : Bool)
  | condition (slot : Nat)
  /-- Nothing is opened: a comment, a reference by name, or options of the whole pattern. -/
  | done (item : Option Node)

def readOptionGroup (atStart : Bool) : Read Opening := do
  let on ← takeOptionLetters
  if on.contains 'L' || (on.contains 'a' && on.contains 'u') then throw .badOptions
  match ← take? with
  | some ')' =>
    unless atStart do throw .misplacedOptions
    modify fun r => { r with options := r.options.union (optionsOf on) }
    return .done none
  | some ':' =>
    if on.contains 't' then throw .badOptions
    return .scoped (optionsOf on) {}
  | some '-' =>
    let off ← takeOptionLetters
    if off.isEmpty || off.any on.contains || (← take?) != some ':' then throw .badOptions
    if on.contains 't' || off.any ['a', 'u', 'L', 't'].contains then throw .badOptions
    return .scoped (optionsOf on) (optionsOf off)
  | _ => throw .badOptions

def readCondition : Read Opening := do
  let name ← takeUntil ')'
  let r ← get
  if Text.isIdentifier name then
    match r.names.lookup (String.ofList name) with
    | some slot =>
      checkBehind slot
      return .condition slot
    | none => throw .unknownGroup
  else
    match Text.integer? (String.ofList name) with
    | none => throw .badGroupName
    | some n =>
      if n ≤ 0 || (maxGroups : Int) ≤ n then throw .badGroupName
      set { r with tested := n.toNat :: r.tested }
      checkBehind n.toNat
      return .condition n.toNat

/-- What follows the first mark that stands behind no backslash. -/
def afterMark (mark : Char) : List Char → Except PatternError (Option (List Char))
  | [] => .ok none
  | ['\\'] => .error .badEscape
  | '\\' :: _ :: rest => afterMark mark rest
  | c :: rest => if c == mark then .ok (some rest) else afterMark mark rest

def readOpening (atStart : Bool) : Read Opening := do
  unless ← accept '?' do return .capture none
  match ← take? with
  | none => throw .unexpectedEnd
  | some 'P' =>
    match ← take? with
    | some '<' =>
      let name ← takeUntil '>'
      unless Text.isIdentifier name do throw .badGroupName
      return .capture (some (String.ofList name))
    | some '=' =>
      let name ← takeUntil ')'
      unless Text.isIdentifier name do throw .badGroupName
      match (← get).names.lookup (String.ofList name) with
      | some slot => return .done (some (← refer slot))
      | none => throw .unknownGroup
    | _ => throw .unknownExtension
  | some ':' => return .plain
  | some '#' =>
    let r ← get
    match ← afterMark ')' r.rest with
    | none => throw .unbalancedGroup
    | some rest =>
      set { r with rest := rest }
      return .done none
  | some '=' => return .look false false
  | some '!' => return .look false true
  | some '<' =>
    match ← take? with
    | some '=' => return .look true false
    | some '!' => return .look true true
    | _ => throw .unknownExtension
  | some '(' => readCondition
  | some '>' => return .atomic
  | some c =>
    if isOptionLetter c || c == '-' then
      modify fun r => { r with rest := c :: r.rest }
      readOptionGroup atStart
    else throw .unknownExtension

/-- The comment that a verbose pattern has at this place is skipped, with its line end. -/
def skipComment : Read Unit := do
  let r ← get
  set { r with rest := (← afterMark '\n' r.rest).getD [] }

/-- An item that means the same wherever it stands, so that alternatives may share it. -/
def isShareable : Node → Bool
  | .one _ | .anchor _ | .ref _ => true
  | _ => false

/-- The items that all alternatives begin with, and the rests of the alternatives. -/
def splitShared : List Node → List (List Node) → List Node × List (List Node)
  | [], rest => ([], [] :: rest)
  | p :: first, rest =>
    if isShareable p && rest.all (·.head? == some p) then
      let (shared, tails) := splitShared first (rest.map (·.drop 1))
      (p :: shared, tails)
    else ([], (p :: first) :: rest)

/-- The members of an alternative that is one character. -/
def asMembers? : List Node → Option (List SetItem)
  | [.one (.char c)] => some [.char c]
  | [.one (.category negated k)] => some [.category negated k]
  | [.one (.set false items)] => some items
  | _ => none

/-- Alternatives as one pattern: what all of them begin with comes once, and alternatives of one
character each are a set. -/
def joinChoice (alternatives : List Node) : Node :=
  match alternatives.map Node.parts with
  | [] => .empty
  | [items] => .inOrder items
  | first :: rest =>
    let (shared, tails) := splitShared first rest
    let last :=
      match tails.mapM asMembers? with
      | some sets => .one (.set false sets.flatten.eraseDups)
      | none => .choice (tails.map Node.inOrder)
    .inOrder (shared ++ [last])

def maxDepth : Nat :=
  980

/-- Reads the inside of a group, which is `steps` deeper. -/
def nested {α : Type} (steps : Nat) (inside : Read α) : Read α := do
  let depth := (← get).depth
  if maxDepth < depth + steps then throw .nestedTooDeep
  modify fun r => { r with depth := depth + steps }
  let result ← inside
  modify fun r => { r with depth := depth }
  return result

def inGroup (alternatives : Read (List Node)) : Read Node := do
  return joinChoice (← nested 2 alternatives)

mutual

def readAlternatives : Nat → Bool → Read (List Node)
  | 0, _ => throw .unexpectedEnd
  | fuel + 1, verbose => do
    let first ← readItems fuel verbose false []
    if ← accept '|' then return first :: (← readAlternatives fuel verbose)
    else return [first]

/-- Reads a sequence of items; `items` holds those read so far, reversed. -/
def readItems : Nat → Bool → Bool → List Node → Read Node
  | 0, _, _, _ => throw .unexpectedEnd
  | fuel + 1, verbose, atStart, items => do
    let next ← peek?
    if next.isNone || next == some '|' || next == some ')' then
      return .inOrder items.reverse
    match ← take? with
    | none => return .inOrder items.reverse
    | some c =>
      if verbose && isLayout c then readItems fuel verbose atStart items
      else if verbose && c == '#' then
        skipComment
        readItems fuel verbose atStart items
      else
        match c with
        | '\\' => readItems fuel verbose false ((← readEscape) :: items)
        | '.' => readItems fuel verbose false (.one .any :: items)
        | '^' => readItems fuel verbose false (.anchor .lineStart :: items)
        | '$' => readItems fuel verbose false (.anchor .lineEnd :: items)
        | '[' =>
          let negated ← accept '^'
          let members ← readSet ((← get).rest.length + 1) true []
          readItems fuel verbose false (.one (ofMembers negated members) :: items)
        | '*' => readItems fuel verbose false (← repeatLast items 0 none)
        | '+' => readItems fuel verbose false (← repeatLast items 1 none)
        | '?' => readItems fuel verbose false (← repeatLast items 0 (some 1))
        | '\x7b' =>
          match bracedBounds? (← get).rest with
          | none => readItems fuel verbose false (.one (.char c) :: items)
          | some (lo, hi, rest) =>
            modify fun r => { r with rest := rest }
            if rest == ['\\'] then throw .badEscape
            let least := (← readBound lo).getD 0
            let most ← readBound hi
            if (most.map (decide <| · < least)).getD false then throw .repeatBounds
            readItems fuel verbose false (← repeatLast items least most)
        | '(' =>
          match ← readOpening (atStart && items.isEmpty) with
          | .done none =>
            readItems fuel (verbose || (← get).options.verbose) atStart items
          | .done (some item) => readItems fuel verbose false (item :: items)
          | .capture name =>
            let slot ← openGroup name
            let body ← inGroup (readAlternatives fuel verbose)
            closing
            closeGroup slot body
            readItems fuel verbose false (.capture slot name body :: items)
          | .plain =>
            let body ← inGroup (readAlternatives fuel verbose)
            closing
            readItems fuel verbose false (.group body :: items)
          | .atomic =>
            let body ← inGroup (readAlternatives fuel verbose)
            closing
            readItems fuel verbose false (.atomic body :: items)
          | .scoped on off =>
            let body ← inGroup (readAlternatives fuel ((verbose || on.verbose) && !off.verbose))
            closing
            readItems fuel verbose false (.scoped on off body :: items)
          | .look behind negated =>
            let before := (← get).behindFrom
            if behind && before.isNone then
              modify fun r => { r with behindFrom := some r.next }
            let body ← inGroup (readAlternatives fuel verbose)
            if behind then modify fun r => { r with behindFrom := before }
            closing
            if behind then
              let (lo, hi) := body.width (← get).widths
              if hi != some lo || repeatLimit < lo then
                modify fun r => { r with unbounded := true }
              readItems fuel verbose false (.look (some lo) negated body :: items)
            else readItems fuel verbose false (.look none negated body :: items)
          | .condition slot =>
            let yes ← nested 1 (readItems fuel verbose false [])
            let no ←
              if ← accept '|' then nested 1 (readItems fuel verbose false []) else pure .empty
            if (← peek?) == some '|' then throw .tooManyBranches
            closing
            readItems fuel verbose false (.whenSet slot yes no :: items)
        | _ => readItems fuel verbose false (.one (.char c) :: items)

end

/-- Reads a whole pattern, and the options switched on in it added to the given ones. Options at its
start hold for all its alternatives. -/
def readWhole : Read Node := do
  let r ← get
  let fuel := 2 * r.rest.length + 3
  let first ← readItems fuel r.options.verbose true []
  let others ←
    if ← accept '|' then readAlternatives fuel (← get).options.verbose else pure []
  let r ← get
  if r.options.ascii && r.options.unicode then throw .conflictingOptions
  unless r.rest.isEmpty do throw .unbalancedGroup
  if r.tested.any (r.next ≤ ·) then throw .unknownGroup
  if r.options.noRepeats && r.repeats then throw .forbiddenRepeat
  if r.unbounded then throw .unboundedLookBehind
  return joinChoice (first :: others)

end VhdlWorkbench.Pattern

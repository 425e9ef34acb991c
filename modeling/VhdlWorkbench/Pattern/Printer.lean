import VhdlWorkbench.Pattern.Basic

/-!
The written form of a pattern. Pasted text stands in it as it is, so it may take part in the syntax around it.
-/

namespace VhdlWorkbench.Pattern

/-- A character of the syntax is written behind a backslash. -/
def escapeChar (c : Char) : List Char :=
  if ['.', '\\', '[', ']', '\x7b', '\x7d', '(', ')', '*', '+', '?', '^', '$', '|'].contains c then
    ['\\', c]
  else if c == '\n' then ['\\', 'n']
  else [c]

/-- The letter of a class; a capital stands for the complement. -/
def Category.letter (negated : Bool) : Category → Char
  | .digit => if negated then 'D' else 'd'
  | .space => if negated then 'S' else 's'
  | .word => if negated then 'W' else 'w'

def SetItem.render : SetItem → List Char
  | .char c => if c == '-' then ['\\', '-'] else escapeChar c
  | .range lo hi => escapeChar lo ++ '-' :: escapeChar hi
  | .category negated k => ['\\', k.letter negated]

def Single.render : Single → List Char
  | .char c => escapeChar c
  | .any => ['.']
  | .category negated k => ['\\', k.letter negated]
  | .set negated items =>
    '[' :: (if negated then ['^'] else []) ++ items.flatMap SetItem.render ++ [']']

def renderBounds (lo : Nat) (hi : Option Nat) (greed : Greed) : List Char :=
  let bounds :=
    match lo, hi with
    | 0, none => ['*']
    | 1, none => ['+']
    | 0, some 1 => ['?']
    | _, none => '\x7b' :: (Nat.toDigits 10 lo ++ [',', '\x7d'])
    | _, some hi =>
      if lo = hi then '\x7b' :: (Nat.toDigits 10 lo ++ ['\x7d'])
      else '\x7b' :: (Nat.toDigits 10 lo ++ ',' :: (Nat.toDigits 10 hi ++ ['\x7d']))
  bounds ++
    match greed with
    | .greedy => []
    | .lazy => ['?']
    | .possessive => ['+']

def Anchor.render : Anchor → List Char
  | .lineStart => ['^']
  | .lineEnd => ['$']
  | .textStart => ['\\', 'A']
  | .textEnd => ['\\', 'Z']
  | .wordEdge => ['\\', 'b']
  | .noWordEdge => ['\\', 'B']

def Options.letters (o : Options) : List Char :=
  (if o.ignoreCase then ['i'] else []) ++ (if o.dotAll then ['s'] else []) ++
    (if o.multiline then ['m'] else []) ++ (if o.verbose then ['x'] else []) ++
    (if o.ascii then ['a'] else []) ++ (if o.unicode then ['u'] else []) ++
    (if o.noRepeats then ['t'] else [])

def Node.render : Node → List Char
  | .empty => []
  | .one s => s.render
  | .run s lo hi greed => s.render ++ renderBounds lo hi greed
  | .seq a b => a.render ++ b.render
  | .alt a b => a.render ++ '|' :: b.render
  | .rep body lo hi greed => body.render ++ renderBounds lo hi greed
  | .capture _ none body => '(' :: body.render ++ [')']
  | .capture _ (some name) body =>
    ['(', '?', 'P', '<'] ++ name.toList ++ '>' :: body.render ++ [')']
  | .group body => ['(', '?', ':'] ++ body.render ++ [')']
  | .scoped on off body =>
    ['(', '?'] ++ on.letters ++ (if off.letters.isEmpty then [] else '-' :: off.letters) ++
      ':' :: body.render ++ [')']
  | .ref slot => '\\' :: Nat.toDigits 10 slot
  | .anchor a => a.render
  | .look behind negated body =>
    ['(', '?'] ++ (if behind.isSome then ['<'] else []) ++
      (if negated then '!' else '=') :: body.render ++ [')']
  | .whenSet slot yes no =>
    ['(', '?', '('] ++ Nat.toDigits 10 slot ++ ')' :: yes.render ++ '|' :: no.render ++ [')']
  | .atomic body => ['(', '?', '>'] ++ body.render ++ [')']
  | .pasted text => text.toList

end VhdlWorkbench.Pattern

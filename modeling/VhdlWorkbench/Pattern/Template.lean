import VhdlWorkbench.Fault
import VhdlWorkbench.Pattern.Regex

/-!
Replacement texts: plain text with references to the groups of the pattern. A reference to a group that took no part
in the match is empty.
-/

namespace VhdlWorkbench.Pattern

inductive Piece where
  | char (c : Char)
  | group (slot : Nat)
deriving DecidableEq, Repr

/-- The characters with a letter of their own behind a backslash in a replacement. -/
def replacementEscape? (c : Char) : Option Char :=
  if c == 'b' then some '\x08' else controlEscape? c

def groupPiece (r : Regex) (slot : Nat) : Except Fault Piece :=
  if slot < r.slots then .ok (.group slot) else .error (.pattern .unknownGroup)

/-- The group that a name or a number in angle brackets refers to. -/
def namedPiece (r : Regex) (name : List Char) : Except Fault Piece :=
  if Text.isIdentifier name then
    match r.names.lookup (String.ofList name) with
    | some slot => groupPiece r slot
    | none => .error .noElement
  else
    match Text.integer? (String.ofList name) with
    | some n => if n < 0 then .error (.pattern .badGroupName) else groupPiece r n.toNat
    | none => .error (.pattern .badGroupName)

/-- What digits behind a backslash stand for, and the number of digits that are taken. -/
def digitPiece (r : Regex) (first : Char) (rest : List Char) : Except Fault (Piece × Nat) :=
  if first == '0' then
    let digits := (rest.take 2).takeWhile isOctal
    .ok (.char (Char.ofNat (numeral 8 digits)), digits.length)
  else
    match rest with
    | d :: e :: _ =>
      if d.isDigit then
        if isOctal first && isOctal d && isOctal e then
          let n := numeral 8 [first, d, e]
          if 255 < n then .error (.pattern .badEscape) else .ok (.char (Char.ofNat n), 2)
        else (groupPiece r (numeral 10 [first, d])).map (·, 1)
      else (groupPiece r (numeral 10 [first])).map (·, 0)
    | [d] =>
      if d.isDigit then (groupPiece r (numeral 10 [first, d])).map (·, 1)
      else (groupPiece r (numeral 10 [first])).map (·, 0)
    | [] => (groupPiece r (numeral 10 [first])).map (·, 0)

/-- Reads a replacement. The fuel is the number of its characters. -/
def readPieces (r : Regex) : Nat → List Char → Except Fault (List Piece)
  | 0, _ => .ok []
  | _, [] => .ok []
  | fuel + 1, '\\' :: rest =>
    match rest with
    | [] => .error (.pattern .badEscape)
    | 'g' :: rest =>
      match rest with
      | '<' :: rest => do
        let name := rest.takeWhile (· != '>')
        match name, rest.drop name.length with
        | [], _ | _, [] => throw (.pattern .badGroupName)
        | _, [_, '\\'] => throw (.pattern .badEscape)
        | _, _ :: rest => return (← namedPiece r name) :: (← readPieces r fuel rest)
      | _ => .error (.pattern .badEscape)
    | c :: rest => do
      if c.isDigit then
        let (piece, taken) ← digitPiece r c rest
        return piece :: (← readPieces r fuel (rest.drop taken))
      match replacementEscape? c with
      | some d => return .char d :: (← readPieces r fuel rest)
      | none =>
        if c.isAlpha then throw (.pattern .badEscape)
        return .char '\\' :: .char c :: (← readPieces r fuel rest)
  | fuel + 1, c :: rest => return .char c :: (← readPieces r fuel rest)

def Piece.fill (m : Match) : Piece → List Char
  | .char c => [c]
  | .group slot => (m.group slot).toList

def Regex.replaceWith (r : Regex) (replacement text : String) : Except Fault String := do
  let written := replacement.toList
  let pieces ← readPieces r written.length written
  return r.replaceBy (fun m => String.ofList (pieces.flatMap (Piece.fill m))) text

end VhdlWorkbench.Pattern

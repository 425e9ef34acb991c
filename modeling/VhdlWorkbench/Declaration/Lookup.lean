import VhdlWorkbench.Declaration.Forms
import VhdlWorkbench.Declaration.Read
import VhdlWorkbench.Source.Comment

/-!
Looking up a name in a source: the forms are tried in order, and the first that matches anywhere decides.
-/

namespace VhdlWorkbench.Declaration

open Pattern Pattern.Node

def leadingComponent : Regex :=
  Regex.ofNode { ignoreCase := true, dotAll := true }
    (start ++ many (.set false [.char ' ', .char '\t']) ++ lit "component" ++ edge ++ few .any ++
      edge ++ lit "end" ++ edge ++ few .any ++ lit ";")

/-- The bit of a set of kinds, which is any integer. -/
def hasKind (kinds : Int) (bit : Nat) : Bool :=
  (kinds / (Nat.pow 2 bit : Nat)) % 2 == 1

/-- The forms that declare `name`, by the kinds that are looked for. -/
def formsOf (name : String) (kinds : Int) : List (Options × Node) :=
  (if hasKind kinds 0 then [(blockOptions, entityForm (.pasted name))] else []) ++
  (if hasKind kinds 1 then [(blockOptions, architectureForm (.pasted name))] else []) ++
  (if hasKind kinds 2 then
    [(lineOptions, signalForm (nameInList name)),
     (lineOptions, portForm (nameInList name)),
     (lineOptions, constantForm (nameInList name)),
     (lineOptions, genericForm (nameInList name)),
     (blockOptions, recordForm (nameAlone name)),
     (lineOptions, aliasForm (.pasted name)),
     (lineOptions, externalAliasForm (.pasted name))]
  else [])

def firstMatch? (source : String) : List (Options × Node) → Except Fault (Option Match)
  | [] => .ok none
  | (options, form) :: rest =>
    match orFault (Regex.build options form) with
    | .error e => .error e
    | .ok r =>
      match r.search? source with
      | some m => .ok (some m)
      | none => firstMatch? source rest

def lookup (source name : String) (kinds : Int) : Except Fault Declaration := do
  let source := leadingComponent.replace "" (Source.withoutComments source)
  match ← firstMatch? source (formsOf name kinds) with
  | none => return notFound name
  | some m =>
    match ← ofMatch name m with
    | d :: _ => return d
    | [] => .error .noElement

end VhdlWorkbench.Declaration

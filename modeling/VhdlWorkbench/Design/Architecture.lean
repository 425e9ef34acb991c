import VhdlWorkbench.Declaration.Forms
import VhdlWorkbench.Declaration.Read
import VhdlWorkbench.Source.Comment

/-!
The declarative part of an architecture, which ends at the first `begin`.
-/

namespace VhdlWorkbench.Design

open Pattern Pattern.Node Declaration

structure Architecture where
  /-- The unit that it belongs to. -/
  unit : String
  name : String
  signals : List Declaration := []
  aliases : List Declaration := []
  constants : List Declaration := []
deriving DecidableEq, Repr

def declarativePart (unit : String) : Node :=
  start ++ gap ++ lit "architecture" ++ gap1 ++ named "arch" identifier ++ gap1 ++ lit "of" ++
    gap1 ++ named "name" (nameOrAny unit) ++ gap1 ++ lit "is" ++ named "decl" (few .any) ++ edge ++
    lit "begin" ++ edge

def architecture? (source unit : String) : Except Fault (Option Architecture) := do
  let source := Source.withoutComments source
  let r ← orFault (Regex.build blockOptions (declarativePart unit))
  match r.search? source with
  | none => return none
  | some m =>
    let part := m.named "decl"
    let signals ← allOfForm lineOptions (signalForm identifierList) part
    let aliases ← allOfForm lineOptions (aliasForm identifier) part
    let external ← allOfForm lineOptions (externalAliasForm identifier) part
    let constants ← allOfForm lineOptions (constantForm identifierList) part
    return some
      { unit := m.named "name", name := m.named "arch", signals, aliases := aliases ++ external,
        constants }

end VhdlWorkbench.Design

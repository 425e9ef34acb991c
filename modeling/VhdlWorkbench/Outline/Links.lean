import VhdlWorkbench.Inspect.TypeInfo
import VhdlWorkbench.Outline.Panel

/-!
The links of the marks in an outline: they fetch the instances below a type, or fold and unfold them.
-/

namespace VhdlWorkbench.Outline

open Editor Editor.Act

def part (parts : List String) (n : Nat) : Except Fault String :=
  match parts[n]? with
  | some s => .ok s
  | none => .error .noElement

def numberPart (parts : List String) (n : Nat) : Except Fault Int := do
  match Text.integer? (← part parts n) with
  | some n => return n
  | none => throw .badValue

def insertBelow (view : Nat) (p : Int) (text : String) : Act Unit := do
  changeBuffer view fun b => { b with selection := [.point (b.lineAt p).b] }
  insertSnippet view "\n"
  insertPlain view (String.ofList text.toList.dropLast)

def addLeaf (name : String) : Act Unit :=
  change fun o => { o with leaves := o.leaves ++ [name] }

def fetchBelow (o : OutlineState) (subject : Nat) (parts : List String) : Act Unit := do
  let name ← lift (part parts 1)
  let markLeaf : Act Unit := do changeMark (← lift (numberPart parts 4)) leafMarkup
  if o.leaves.contains name then markLeaf
  else
    match ← Inspect.lookupType subject name 2 with
    | none =>
      addLeaf name
      markLeaf
    | some d =>
      match d.type with
      | none => throw .noMember
      | some type =>
        if Text.toLower type != "architecture" then return
        match d.location with
        | none => return
        | some l =>
          let instances ← Inspect.instancesInFile l.file Pattern.Node.anyName
          let text ← lift ({ instances := instances.getD [] : Content }.text (optionsOf o) 2)
          if text.isEmpty then
            addLeaf d.name
            markLeaf
          else
            insertBelow o.view (← lift (numberPart parts 2)) text
            buildMarks

def lineBelow (b : Buffer) (r : Region) : Region :=
  .point ((b.line r).b + 1)

/-- Goes over the lines of a list of methods, up to an end, and gathers the parts that are deeper than
the methods. -/
def methodFolds (b : Buffer) (level stop : Int) : Nat → Region → Except Fault (List Region)
  | 0, _ => .ok []
  | fuel + 1, r => do
    let r := lineBelow b r
    if (← b.indentation r.a) < level || stop ≤ r.b then return []
    let s := lineBelow b r
    let levelBelow ← b.indentation s.a
    if levelBelow < level then return []
    if levelBelow ≤ level then methodFolds b level stop fuel r
    else
      let s ← b.indentedRegion s.b
      if s.isEmpty then methodFolds b level stop fuel r
      else
        let s : Region := ⟨s.a - 1, s.b - 1⟩
        return s :: (← methodFolds b level stop fuel s)

def methodsHeading : Pattern.Regex :=
  Pattern.Regex.ofNode { multiline := true } (Pattern.Node.lit "Methods:")

def foldMethods (view : Nat) (p : Int) : Act Unit := do
  let b ← buffer view
  let around ← lift (b.indentedRegion p)
  let r ← find view methodsHeading p
  let level := (← lift (b.indentation r.a)) + 1
  if around.b ≤ r.a then return
  let folds ← lift (methodFolds b level around.b (b.size + 2) r)
  changeBuffer view fun b => folds.foldl Buffer.fold b

def foldBelow (o : OutlineState) (parts : List String) : Act Unit := do
  let p ← lift (numberPart parts 1)
  let b ← buffer o.view
  let s ← lift (b.indentedRegion ((b.lineAt p).b + 1))
  if !s.isEmpty then changeBuffer o.view (·.fold ⟨s.a - 1, s.b - 1⟩)
  let number ← lift (numberPart parts 2)
  changeMark number (markLink "+" ["unfold", toString p, toString number])

def unfoldBelow (o : OutlineState) (parts : List String) : Act Unit := do
  let p ← lift (numberPart parts 1)
  let s := lineBelow (← buffer o.view) (.point p)
  changeBuffer o.view (·.unfold s)
  let number ← lift (numberPart parts 2)
  changeMark number (markLink "-" ["fold", toString p, toString number])
  foldMethods o.view s.b

def follow (href : String) : Act Unit := do
  let parts := Text.splitOn href ':'
  let o ← current
  let (subject, _) ← lift (o.demandSubject)
  match parts.headD "" with
  | "type" => fetchBelow o subject parts
  | "fold" => foldBelow o parts
  | "unfold" => unfoldBelow o parts
  | _ => return

end VhdlWorkbench.Outline

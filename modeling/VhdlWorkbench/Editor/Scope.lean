import VhdlWorkbench.Editor.Workspace

/-!
Widening a region to the part of the text that has a scope.
-/

namespace VhdlWorkbench.Editor.Act

/-- Goes from line end to line end while the scope goes on: the place and the scopes where that stops,
and the last place that still has the scope. -/
def scopeForward (id : Nat) (wanted : String) : Nat → Int → String → Int → Act (Int × String × Int)
  | 0, p, scope, last => return (p, scope, last)
  | fuel + 1, p, scope, last => do
    if !Text.contains scope wanted then return (p, scope, last)
    let q ← next id p [.lineEnd]
    let scope ← scopeAt id q
    if q ≤ p then return (q, scope, p)
    scopeForward id wanted fuel q scope p

/-- Goes back place by place until the scope is found, at most to a limit. -/
def retreat (id : Nat) (wanted : String) (limit : Int) : Nat → Int → String → Act Int
  | 0, p, _ => return p
  | fuel + 1, p, scope => do
    if Text.contains scope wanted || p ≤ limit then return p
    retreat id wanted limit fuel (p - 1) (← scopeAt id (p - 1))

/-- Goes from line start to line start while the scope goes on: the place and the scopes where that
stops, and the last place that still has the scope. -/
def scopeBackward (id : Nat) (wanted : String) : Nat → Int → String → Int → Act (Int × String × Int)
  | 0, p, scope, last => return (p, scope, last)
  | fuel + 1, p, scope, last => do
    if !Text.contains scope wanted then return (p, scope, last)
    let q ← previous id p [.lineStart]
    let scope ← scopeAt id (q - 1)
    if p ≤ q then return (q, scope, p)
    scopeBackward id wanted fuel q scope p

/-- Goes forward place by place until the scope is found, at most to a limit. -/
def advance (id : Nat) (wanted : String) (limit : Int) : Nat → Int → String → Act Int
  | 0, p, _ => return p
  | fuel + 1, p, scope => do
    if Text.contains scope wanted || limit ≤ p then return p
    advance id wanted limit fuel (p + 1) (← scopeAt id (p + 1))

/-- The region widened to the part of the text around it that has a scope. -/
def expandToScope (id : Nat) (wanted : String) (r : Region) : Act Region := do
  let size := (← buffer id).size
  let (p, scope, last) ← scopeForward id wanted (size + 2) r.b (← scopeAt id r.b) r.b
  let stop ← retreat id wanted last ((p - last).toNat + 1) p scope
  let (p, scope, last) ← scopeBackward id wanted (size + 2) r.a (← scopeAt id r.a) r.a
  let start ← advance id wanted last ((last - p).toNat + 1) p scope
  if ← isKind id start .lineStart then return ⟨last, stop + 1⟩
  else return ⟨start - 1, stop + 1⟩

end VhdlWorkbench.Editor.Act

/-!
Regions of a text: two places, in either order.
-/

namespace VhdlWorkbench.Editor

structure Region where
  a : Int
  b : Int
deriving DecidableEq, Repr

namespace Region

def first (r : Region) : Int :=
  min r.a r.b

def last (r : Region) : Int :=
  max r.a r.b

def isEmpty (r : Region) : Bool :=
  r.a == r.b

def point (p : Int) : Region :=
  ⟨p, p⟩

def none : Region :=
  ⟨-1, -1⟩

def report (r : Region) : String :=
  "(" ++ toString r.a ++ ", " ++ toString r.b ++ ")"

end Region

end VhdlWorkbench.Editor

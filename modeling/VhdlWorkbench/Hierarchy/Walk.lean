import VhdlWorkbench.Design.Instance
import VhdlWorkbench.Table

/-!
The design hierarchy below a unit: the type of each instance has an architecture, is a component, or is not known.
-/

namespace VhdlWorkbench.Hierarchy

open Design (Instance)

inductive Resolution where
  /-- Nothing. -/
  | unresolved
  /-- There are files for it, but no architecture. -/
  | component
  /-- A file has an architecture of it with these instances. -/
  | architecture (file : String) (instances : List Instance)
deriving DecidableEq, Repr

structure Explored where
  /-- The files of the types with an architecture. -/
  files : List (String × String) := []
  /-- The instances of the types that have some. -/
  instances : List (String × List Instance) := []
  components : List String := []
  unresolved : List String := []
deriving DecidableEq, Repr

namespace Explored

/-- The type is known to have an architecture or to be a component. -/
def isSettled (e : Explored) (type : String) : Bool :=
  (e.files.lookup type).isSome || e.components.contains type

def add (e : Explored) (type : String) : Resolution → Explored
  | .unresolved => { e with unresolved := e.unresolved ++ [type] }
  | .component => { e with components := e.components ++ [type] }
  | .architecture file instances =>
    { e with
      files := Table.put e.files type file
      instances := if instances.isEmpty then e.instances else Table.put e.instances type instances }

end Explored

def Resolution.instances : Resolution → List Instance
  | .architecture _ instances => instances
  | _ => []

variable {m : Type → Type} [Monad m]

/-- Resolves the types of instances, those that are settled excepted: the instances that they lead on
to, and what is known then. -/
def exploreAll (resolve : String → m Resolution) :
    List Instance → Explored → m (List Instance × Explored)
  | [], e => return ([], e)
  | i :: rest, e => do
    if e.isSettled i.unit then exploreAll resolve rest e
    else
      let found ← resolve i.unit
      let (more, e) ← exploreAll resolve rest (e.add i.unit found)
      return (found.instances ++ more, e)

/-- Resolves the types of instances and of all that they lead on to, in at most `fuel` rounds. -/
def exploreFrom (resolve : String → m Resolution) : Nat → List Instance → Explored → m Explored
  | 0, _, e => return e
  | _ + 1, [], e => return e
  | fuel + 1, instances, e => do
    let (next, e) ← exploreAll resolve instances.eraseDups e
    exploreFrom resolve fuel next e

/-- The hierarchy below a unit with the given instances. A round that is not the last settles a type
that has files, so `fileTypes`, the number of those types, bounds the rounds. -/
def explore (resolve : String → m Resolution) (fileTypes : Nat) (unit : String)
    (instances : List Instance) : m Explored :=
  exploreFrom resolve (fileTypes + 2) instances { instances := [(unit, instances)] }

end VhdlWorkbench.Hierarchy

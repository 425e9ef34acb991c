import VhdlWorkbench.Editor.Region
import VhdlWorkbench.Json.Basic

/-!
What the editor is asked to do and what is printed, as events of a log.
-/

namespace VhdlWorkbench.Editor

/-- Whom a setting or a command belongs to. -/
inductive Target where
  | buffer (id : Nat)
  | window
  | application
deriving DecidableEq, Repr

/-- The arrangement of groups in the window: the places of the columns and rows, and for each group the
columns and rows that it lies between. -/
structure WindowLayout where
  columns : List Float := [0.0, 1.0]
  rows : List Float := [0.0, 1.0]
  cells : List (List Int) := [[0, 0, 1, 1]]

structure Phantom where
  region : Region
  content : String
  /-- The markup has links. -/
  hasLinks : Bool
deriving DecidableEq, Repr

inductive Event where
  | setting (target : Target) (key : String) (value : Json)
  | command (target : Target) (name : String) (args : Json)
  | syntaxFile (buffer : Nat) (file : String)
  | scratch (buffer : Nat) (on : Bool)
  | center (buffer : Nat) (place : Int)
  | erasePhantoms (buffer : Nat) (key : String)
  | phantoms (buffer : Nat) (key : String) (phantoms : List Phantom)
  | popup (buffer : Nat) (html : String) (location : Int) (flags maxWidth : Nat)
  | newFile (buffer : Nat)
  | openFile (name : String) (flags : Nat)
  | focusView (buffer : Nat)
  | focusGroup (group : Int)
  | layout (layout : WindowLayout)
  | outputPanel (name : String) (buffer : Nat)
  | quickPanel (items : List String)
  | inputPanel (caption initial : String)
  | status (message : String)
  | print (line : String)

end VhdlWorkbench.Editor

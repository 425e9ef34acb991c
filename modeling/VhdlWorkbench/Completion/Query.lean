import VhdlWorkbench.Completion.Record
import VhdlWorkbench.Declaration.Entry
import VhdlWorkbench.Inspect.TypeInfo

/-!
Proposals at the cursor: behind a dot the fields of the record in front of it.
-/

namespace VhdlWorkbench.Completion

open Editor Editor.Act Inspect

/-- What stands before the cursor: the line so far, the last symbol and word, and the scopes where they
begin. -/
structure Before where
  line : String
  symbol : String
  word : String
  scope : String

def endKinds : List PlaceKind :=
  [.lineStart, .punctuationEnd, .wordEnd]

/-- The last symbol before a region, and where to look for the word before it. -/
def symbolBefore (id : Nat) (r : Region) : Act (String × Region) := do
  let r ←
    if (Text.trim (← textOf id r)).isEmpty then
      pure (Region.point (← previous id r.b endKinds))
    else pure r
  if (← textOf id r) == "." then return (← textOf id r, r)
  if !(← isKind id r.b .punctuationEnd) then return ("", r)
  let start ← previous id r.b [.punctuationStart]
  let symbol := Text.trim (← textOf id ⟨start, r.b⟩)
  if symbol.isEmpty then return ("", .point (← previous id start endKinds))
  if Text.endsWith symbol "." then return (".", .point (r.b - 1))
  return (symbol, .point start)

/-- What stands before the cursor and the given beginning of a name. -/
def before (id : Nat) (cursor : Region) (typed : String) : Act Before := do
  let lineStart ← previous id cursor.b [.lineStart]
  let line := Text.trim (← textOf id ⟨lineStart, cursor.b⟩)
  let stop := cursor.b - typed.length
  let (symbol, r) ← symbolBefore id ⟨stop - 1, stop⟩
  if ← isKind id r.b .wordEnd then
    let start ← previous id r.b [.wordStart]
    let word := Text.trim (← textOf id ⟨start, r.b⟩)
    return { line, symbol, word, scope := ← scopeAt id start }
  else return { line, symbol, word := "", scope := ← scopeAt id r.a }

/-- Goes back to an opening bracket: to the place before it. -/
def seekOpening (id : Nat) : Nat → Region → Act Region
  | 0, r => return r
  | fuel + 1, r => do
    if (← textOf id r) == "(" then return ⟨r.a - 1, r.a⟩
    let p ← previous id r.a [.punctuationStart]
    seekOpening id fuel ⟨p, p + 1⟩

def skipIndices (id : Nat) : Nat → Region → Act Region
  | 0, r => return r
  | fuel + 1, r => do
    if (← textOf id r) != ")" then return r
    skipIndices id fuel (← seekOpening id questionLimit (.point (r.a - 1)))

def fieldlessTypes : List String :=
  ["std_logic", "std_logic_vector", "bit", "bit_vector", "string", "integer", "real", "time",
   "boolean"]

def fieldsOf (id : Nat) (debug : Bool) (r : Region) : Act (List Proposal) := do
  let b ← buffer id
  let name := Text.trimRight (← textOf id r)
  let text ← textThrough id r
  let d ← lift (Declaration.lookup text name 4)
  if debug then
    print ("[VHDL::dot_completion] Word = " ++ name ++ " -> type = " ++ d.report)
  match d.type with
  | none => return []
  | some type =>
    if type.isEmpty || fieldlessTypes.contains type then return []
    let local_ ← lift (Declaration.lookup text type 4)
    let record ←
      if hasType local_ then pure local_
      else do
        match ← symbolEntries type with
        | [] => pure local_
        | entries => searchIndex (← lift (sourceEndings b)) type false entries [] local_
    if debug then print ("[VHDL::dot_completion] => type = " ++ record.report)
    if record.type == some "record" then return ofRecord (record.text.getD "") else return []

def afterDot (id : Nat) (debug : Bool) (dot : Region) : Act (List Proposal) := do
  let b ← buffer id
  let _ ← textOf id (b.word dot)
  let r := b.word (← skipIndices id questionLimit ⟨dot.a - 1, dot.a⟩)
  let name := Text.trimRight (← textOf id r)
  let scope ← scopeAt id r.a
  if debug then
    print ("[VHDL::dot_completion] previous word=\"" ++ name ++ "\" scope=" ++ scope ++ " ")
  if name.isEmpty || Text.contains scope "entity.name.tag.library" ||
      Text.contains scope "invalid.illegal" then
    return []
  let isDeeper ← if 1 < r.a then do pure ((← textOf id ⟨r.a - 1, r.a⟩) == ".") else pure false
  if isDeeper then
    print ("[VHDL::dot_completion] Reached max hierarchy level for autocompletion. " ++
      "You can change setting vhdl.autocomplete_max_lvl")
    return []
  fieldsOf id debug r

/-- The answer to a query for proposals, and how it goes together with the editor's own proposals. -/
structure Answer where
  proposals : List Proposal
  flags : Nat

/-- The proposals at the cursor behind the beginning of a name, unless the text is no code or they are
switched off. -/
def query (id : Nat) (typed : String) (places : List Int) : Act (Option Answer) := do
  let b ← buffer id
  match places with
  | [] => throw .noElement
  | p :: _ =>
    if !Text.contains (b.scopeName p) "source.vhdl" then return none
    let debug := b.flag "vhdl.debug" false
    if b.flag "vhdl.disable_autocomplete" true then return none
    let cursor ← lift b.cursor
    let scope ← scopeAt id cursor.a
    let flags := if typed.isEmpty then 24 else 0
    let before ← before id cursor typed
    if debug then
      print ("[VHDL::Autocomplete] prefix=\"" ++ typed ++ "\" previous symbol=\"" ++ before.symbol ++
        "\" previous word=\"" ++ before.word ++ "\" line=\"" ++ before.line ++ "\" scope=" ++ scope ++
        " / " ++ before.scope)
    if before.symbol == "." then
      let stop := cursor.b - typed.length
      return some ⟨← afterDot id debug ⟨stop - 1, stop⟩, flags⟩
    else return some ⟨[], flags⟩

end VhdlWorkbench.Completion

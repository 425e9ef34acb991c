import VhdlWorkbench.Layout.Binding

/-!
Alignment of instances of entities and components.
-/

namespace VhdlWorkbench.Layout

open Pattern Pattern.Node

def instanceBlock : Regex :=
  Regex.ofNode oneRow
    (named "emptyline" (many (.char '\n')) ++ spacing ++ named "inst_name" identifier ++ gap ++
      lit ":" ++ gap ++
      named "type" (Node.optional (oneOf [lit "component" ++ gap1,
          lit "entity" ++ gap1 ++ identifier ++ lit "."]) ++ identifier ++ edge ++
        Node.optional (.group (lit "(" ++
          many1 (.set false [.category false .word, .category false .space]) ++ lit ")"))) ++ gap ++
      .group (named "gen_or_port" (choice [lit "generic", lit "port"]) ++ gap1 ++ lit "map") ++ gap ++
      lit "(" ++ named "content" (many .any) ++ lit ")" ++ gap ++ lit ";")

/-- The content of a generic map and what follows up to the content of the port map. -/
def mapsBlock : Regex :=
  Regex.ofNode oneRow
    (named "gen_content" (many .any) ++ edge ++ lit "port" ++ gap1 ++ lit "map" ++ gap ++ lit "(" ++
      named "port_content" (many .any))

def lineComment : Regex :=
  Regex.ofNode { multiline := true } (lit "--" ++ many .any ++ stop)

/-- The content of a generic map before its closing parenthesis, and what stands between that and the
port map. Parentheses in comments do not count. -/
def splitGenericMap (content : String) : Except Fault (String × String) :=
  let blanked := lineComment.replaceBy (fun m => Text.spaces m.text.length) content
  match Text.findLast? blanked ")" with
  | none => .error .badValue
  | some close =>
    .ok (Text.trim (Text.slice content 0 close),
      Text.trim (Text.slice content (close + 1) content.length))

/-- The generic map of an instance and the content of its port map, if it has one. -/
def alignGenericMap (level : Int) (content : String) : Except Fault (Option (String × String)) := do
  match mapsBlock.matchStart? content with
  | none => return none
  | some m =>
    let (generics, between) ← splitGenericMap (m.named "gen_content")
    let text := tabs (level + 1) ++ "generic map (\n" ++ alignBinding generics (level + 2) ++
      tabs (level + 1) ++ ")\n" ++
      (if between.isEmpty then "" else tabs (level + 1) ++ between ++ "\n")
    return some (text, m.named "port_content")

/-- The instance at the start of a text, aligned. Nothing when the text does not begin with an
instance, or when its generic map is not followed by a port map. -/
def alignInstance (text : String) (level : Int) : Except Fault (Option String) := do
  match instanceBlock.matchStart? text with
  | none => return none
  | some m =>
    let head := m.named "emptyline" ++ tabs level ++ m.named "inst_name" ++ " : " ++
      Text.trim (m.named "type") ++ "\n"
    let maps ←
      if m.named "gen_or_port" == "generic" then alignGenericMap level (m.named "content")
      else pure (some ("", m.named "content"))
    return maps.map fun (generics, ports) =>
      head ++ generics ++ tabs (level + 1) ++ "port map (\n" ++ alignBinding ports (level + 2) ++
        tabs (level + 1) ++ ");"

end VhdlWorkbench.Layout

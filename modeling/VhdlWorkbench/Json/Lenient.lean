import VhdlWorkbench.Text.Blank
import VhdlWorkbench.Text.Literal

/-!
JSON texts with comments and dangling commas. A comma is dangling when only blanks stand between it and a closing
bracket; what is removed leaves its line ends with `keepLines`.
-/

namespace VhdlWorkbench.Json

/-- The first character of every line end, `\n` or `\r\n`. -/
def lineEnds : List Char → List Char
  | [] => []
  | '\r' :: '\n' :: rest => '\r' :: lineEnds rest
  | c :: rest => if c == '\n' then '\n' :: lineEnds rest else lineEnds rest

def residue (keepLines : Bool) (comment : List Char) : List Char :=
  if keepLines then lineEnds comment else []

def beginsPiece (c : Char) : Bool :=
  c == '/' || c == '"' || c == '\x27'

/-- The characters behind the blanks and the line comment that a text begins with. -/
def afterLineComment? (cs : List Char) : Option (List Char) :=
  match Text.dropBlanks cs with
  | '/' :: '/' :: rest => some (rest.dropWhile fun c => c != '\r' && c != '\n')
  | _ => none

theorem afterLineComment?_length {cs rest : List Char} (h : afterLineComment? cs = some rest) :
    rest.length < cs.length := by
  unfold afterLineComment? at h
  split at h
  · next tail heq =>
    simp only [Option.some.injEq] at h
    have h1 := Text.length_dropWhile_le Text.isBlank cs
    have h2 := Text.length_dropWhile_le (fun c => c != '\r' && c != '\n') tail
    rw [Text.dropBlanks] at heq
    rw [heq] at h1
    rw [h] at h2
    simp only [List.length_cons] at h1
    omega
  · simp at h

/-- The closed block comment that a text begins with, and the characters behind it. -/
def blockComment? : List Char → Option (List Char × List Char)
  | '/' :: '*' :: rest => Text.block? rest
  | _ => none

/-- The closed literal that a text begins with, and the characters behind it. -/
def literalPiece? : List Char → Option (List Char × List Char)
  | c :: rest =>
    if c == '"' || c == '\x27' then (Text.literal? c rest).map fun (body, rest) => (c :: body, rest)
    else none
  | [] => none

theorem blockComment?_length {cs body rest : List Char} (h : blockComment? cs = some (body, rest)) :
    rest.length < cs.length := by
  unfold blockComment? at h
  split at h
  · have := Text.block?_length h
    simp only [List.length_cons]
    omega
  · simp at h

theorem literalPiece?_length {cs body rest : List Char} (h : literalPiece? cs = some (body, rest)) :
    rest.length < cs.length := by
  unfold literalPiece? at h
  split at h
  · split at h
    · obtain ⟨⟨b, r⟩, hb, he⟩ := Option.map_eq_some_iff.1 h
      simp only [Prod.mk.injEq] at he
      have := Text.literal?_length hb
      rw [← he.2]
      simp only [List.length_cons]
      omega
    · simp at h
  · simp at h

def removeComments (keepLines : Bool) (cs : List Char) : List Char :=
  match _hb : blockComment? cs with
  | some (body, rest) => residue keepLines body ++ removeComments keepLines rest
  | none =>
    match _hl : afterLineComment? cs with
    | some rest =>
      residue keepLines (cs.takeWhile Text.isBlank) ++ removeComments keepLines rest
    | none =>
      match _hq : literalPiece? cs with
      | some (body, rest) => body ++ removeComments keepLines rest
      | none =>
        match cs with
        | [] => []
        | c :: rest =>
          c :: rest.takeWhile (!beginsPiece ·) ++
            removeComments keepLines (rest.dropWhile (!beginsPiece ·))
termination_by cs.length
decreasing_by
  · exact blockComment?_length _hb
  · exact afterLineComment?_length _hl
  · exact literalPiece?_length _hq
  · have := Text.length_dropWhile_le (!beginsPiece ·) rest
    simp only [List.length_cons]
    omega

def removeDanglingCommas (keepLines : Bool) (cs : List Char) : List Char :=
  match _hq : literalPiece? cs with
  | some (body, rest) => body ++ removeDanglingCommas keepLines rest
  | none =>
    match cs with
    | [] => []
    | c :: rest =>
      match c == ',', _hd : Text.dropBlanks rest with
      | true, d :: after =>
        if d == ']' || d == '\x7d' then
          (if keepLines then rest.takeWhile Text.isBlank else []) ++
            d :: removeDanglingCommas keepLines after
        else c :: removeDanglingCommas keepLines rest
      | _, _ => c :: removeDanglingCommas keepLines rest
termination_by cs.length
decreasing_by
  · exact literalPiece?_length _hq
  · have := Text.length_dropWhile_le Text.isBlank rest
    rw [Text.dropBlanks] at _hd
    rw [_hd] at this
    simp only [List.length_cons] at *
    omega
  · simp
  · simp

def withoutComments (keepLines : Bool) (text : String) : String :=
  String.ofList (removeComments keepLines text.toList)

def withoutDanglingCommas (keepLines : Bool) (text : String) : String :=
  String.ofList (removeDanglingCommas keepLines text.toList)

def sanitize (keepLines : Bool) (text : String) : String :=
  withoutDanglingCommas keepLines (withoutComments keepLines text)

end VhdlWorkbench.Json

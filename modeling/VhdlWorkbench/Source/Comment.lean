import VhdlWorkbench.Text.Literal

/-!
Comments of VHDL sources, each of which gives way to one space. A block comment or a literal that is not closed is
ordinary text.
-/

namespace VhdlWorkbench.Source

def blankComments : List Char → List Char
  | [] => []
  | '-' :: '-' :: rest => ' ' :: blankComments (rest.dropWhile (· != '\n'))
  | '/' :: '*' :: rest =>
    match _h : Text.block? rest with
    | some (_, after) => ' ' :: blankComments after
    | none => '/' :: blankComments ('*' :: rest)
  | '"' :: rest =>
    match _h : Text.literal? '"' rest with
    | some (body, after) => '"' :: body ++ blankComments after
    | none => '"' :: blankComments rest
  | c :: rest => c :: blankComments rest
termination_by cs => cs.length
decreasing_by
  all_goals simp only [List.length_cons]
  · have := Text.length_dropWhile_le (· != '\n') rest
    omega
  · have := Text.block?_length _h
    omega
  · omega
  · have := Text.literal?_length _h
    omega
  · omega
  · omega

/-- A source text with a space for each comment. -/
def withoutComments (source : String) : String :=
  String.ofList (blankComments source.toList)

end VhdlWorkbench.Source

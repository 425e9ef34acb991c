import VhdlWorkbench.Proofs.UnitLayout

/-!
Entities with a port on each line are read back.
-/

namespace VhdlWorkbench.Design

open Pattern Declaration List
open Source (blankComments blankComments_plain isPlain)

/-- A port on a line of its own; a comment may stand behind it. What leads to the port is left to the text. -/
structure NotedPort where
  port : PortLayout
  dashless : port.type.chars.getLast? ≠ some '-'
  blanks : Gap
  note : Option (List Char)
  single : ∀ line, note = some line → '\n' ∉ line

namespace NotedPort

/-- The end of the line. -/
def comment (n : NotedPort) : List Char :=
  n.blanks.chars ++ ((n.note.elim [] fun line => '-' :: '-' :: line) ++ ['\n'])

/-- What is left of the end of the line without the comment. -/
def lineBreak (n : NotedPort) : Gap where
  chars := n.blanks.chars ++ ((n.note.elim [] fun _ => [' ']) ++ ['\n'])
  blank := by
    have ends : ∀ c ∈ (n.note.elim [] fun _ => [' ']) ++ ['\n'], Text.isBlank c = true := by
      cases n.note with
      | none => decide
      | some line => exact (by decide : ∀ c ∈ [' ', '\n'], Text.isBlank c = true)
    exact fun c member => (mem_append.mp member).elim (n.blanks.blank c) (ends c)

theorem blankComments_comment (n : NotedPort) (rest : List Char) :
    blankComments (n.comment ++ rest) = n.lineBreak.chars ++ blankComments rest := by
  have chars : n.lineBreak.chars = n.blanks.chars ++ ((n.note.elim [] fun _ => [' ']) ++ ['\n']) := rfl
  rw [comment, append_assoc, blankComments_gap, chars, append_assoc]
  cases written : n.note with
  | none => simp [blankComments_mark (c := '\n') rfl]
  | some line =>
    have left : (line ++ '\n' :: rest).dropWhile (· != '\n') = '\n' :: rest := by
      rw [dropWhile_append_of_pos]
      · rfl
      · intro c member
        exact bne_iff_ne.mpr fun feed => n.single line written (feed ▸ member)
    simp only [Option.elim_some, cons_append, append_assoc, nil_append]
    rw [blankComments, left, blankComments_mark (c := '\n') rfl]

theorem comment_head (n : NotedPort) (rest : List Char) : ∀ c, (n.comment ++ rest).head? = some c → c ≠ '*' := by
  rintro c head rfl
  rw [comment, append_assoc, head?_append] at head
  cases blanks : n.blanks.chars with
  | nil => cases written : n.note <;> simp [blanks, written] at head
  | cons d ds =>
    rw [blanks] at head
    exact n.blanks.not_mem (c := '*') (by decide) (by rw [blanks]; exact mem_of_head? head)

theorem blankComments_declaration (n : NotedPort) {after : List Char} (stops : ∀ c, after.head? = some c → c ≠ '*') :
    blankComments (n.port.declaration ++ after) = n.port.declaration ++ blankComments after :=
  blankComments_port { n.port with lead := noGap } fun c head => ⟨fun dash => absurd dash n.dashless, stops c head⟩

/-- The port without its comment; behind the last one, the end of the line stands before the parenthesis. -/
def layout (n : NotedPort) (lead : Gap) : List NotedPort → PortLayout
  | [] =>
    { n.port with
      lead
      tail :=
        { chars := n.port.tail.chars ++ n.lineBreak.chars
          blank := fun c member => (mem_append.mp member).elim (n.port.tail.blank c) (n.lineBreak.blank c) } }
  | _ :: _ => { n.port with lead }

theorem facts_layout (n : NotedPort) (lead : Gap) (rest : List NotedPort) : (n.layout lead rest).facts = n.port.facts := by
  cases rest <;> rfl

theorem opensLine_layout (n : NotedPort) {lead : Gap} (feed : lead.chars.getLast? = some '\n') (first : Bool)
    (rest : List NotedPort) : (n.layout lead rest).opensLine first = true := by
  have begins : (n.layout lead rest).lead = lead := by
    cases rest <;> rfl
  rw [PortLayout.opensLine, begins, feed]
  rfl

theorem lineBreak_last (n : NotedPort) : n.lineBreak.chars.getLast? = some '\n' := by
  simp [lineBreak]

end NotedPort

/-- The lines of the ports. -/
def printedPorts (n : NotedPort) : List NotedPort → List Char
  | [] => n.port.declaration ++ n.comment
  | next :: rest => n.port.declaration ++ ';' :: (n.comment ++ printedPorts next rest)

/-- The ports behind the first one, without the comments. -/
def laterPorts (n : NotedPort) : List NotedPort → List PortLayout
  | [] => []
  | next :: rest => next.layout n.lineBreak rest :: laterPorts next rest

theorem blankComments_printedPorts (n : NotedPort) (rest : List NotedPort) (lead : Gap) (after : List Char) :
    lead.chars ++ blankComments (printedPorts n rest ++ after) =
      (n.layout lead rest).text ++ ((laterPorts n rest).flatMap (fun p => ';' :: p.text) ++
        blankComments after) := by
  induction rest generalizing n lead with
  | nil =>
    rw [printedPorts, append_assoc, n.blankComments_declaration (n.comment_head after), n.blankComments_comment]
    simp [laterPorts, NotedPort.layout, PortLayout.text, PortLayout.declaration, PortLayout.afterName]
  | cons next rest ih =>
    rw [printedPorts, append_assoc, cons_append, append_assoc,
      n.blankComments_declaration (by rintro c ⟨⟩; decide), blankComments_mark rfl, n.blankComments_comment, ih,
      laterPorts, flatMap_cons]
    simp [NotedPort.layout, PortLayout.text, PortLayout.declaration, PortLayout.afterName]

theorem facts_laterPorts (n : NotedPort) (rest : List NotedPort) :
    (laterPorts n rest).map PortLayout.facts = rest.map (·.port.facts) := by
  induction rest generalizing n with
  | nil => rfl
  | cons next rest ih => rw [laterPorts, map_cons, next.facts_layout, ih, map_cons]

theorem opensLine_laterPorts (n : NotedPort) (rest : List NotedPort) : ∀ p ∈ laterPorts n rest, p.opensLine false = true := by
  induction rest generalizing n with
  | nil => exact forall_mem_nil _
  | cons next rest ih =>
    exact forall_mem_cons.mpr ⟨next.opensLine_layout n.lineBreak_last false rest, ih next⟩

def printedEntity (name : Identifier) (n : NotedPort) (rest : List NotedPort) : List Char :=
  "entity ".toList ++ (name.chars ++ (" is\nport (".toList ++ '\n' :: (printedPorts n rest ++
    (");\nend ".toList ++ (name.chars ++ [';'])))))

theorem printed_is : Spells "is" "is".toList := by decide

theorem printed_end : Spells "end" "end".toList := by decide

theorem newLine_nonempty : newLine.chars ≠ [] := by decide

def entityLayout (name : Identifier) (n : NotedPort) (rest : List NotedPort) : UnitLayout where
  kind := .entity
  keyword := ⟨"entity".toList, by decide⟩
  beforeName := oneSpace
  name := name
  beforeIs := oneSpace
  is := ⟨"is".toList, printed_is⟩
  beforePort := ⟨newLine, newLine_nonempty⟩
  port := ⟨"port".toList, by decide⟩
  beforeParen := oneSpace.toGap
  first := n.layout newLine rest
  others := laterPorts n rest
  beforeSemicolon := noGap
  beforeEnd := newLine
  ending := ⟨"end".toList, printed_end⟩
  closing := ' ' :: name.chars
  apart := by rintro c ⟨⟩; decide
  words := by
    intro c member
    rcases mem_cons.mp member with rfl | letter
    · exact Or.inl (by decide)
    · exact Or.inr (name.wordy c letter)

theorem blankComments_printedEntity (name : Identifier) (n : NotedPort) (rest : List NotedPort) :
    blankComments (printedEntity name n rest) = (entityLayout name n rest).text := by
  have opening := blankComments_plain (show ∀ c ∈ "entity ".toList, isPlain c = true by decide)
  have clause := blankComments_plain (show ∀ c ∈ " is\nport (".toList, isPlain c = true by decide)
  have closing := blankComments_plain (show ∀ c ∈ ");\nend ".toList, isPlain c = true by decide)
  have last := blankComments_mark (c := ';') rfl []
  have ports := blankComments_printedPorts n rest newLine (");\nend ".toList ++ (name.chars ++ [';']))
  rw [closing, blankComments_word, last] at ports
  have lines := (blankComments_mark (c := '\n') rfl _).trans ports
  refine (opening _).trans ?_
  rw [blankComments_word, clause, lines]
  simp [entityLayout, UnitLayout.text, UnitLayout.content, UnitLayout.foot, oneSpace, newLine, noGap,
    blankComments]

/-- An entity that is printed with a port on each line, and any comments at the ends of the lines, is read back:
its name, no generics, and its ports in order, each with its name, direction, type and text. -/
theorem printed_entity_read_back (name : Identifier) (n : NotedPort) (rest : List NotedPort) :
    ∃ r, interface? (String.ofList (printedEntity name n rest)) Node.anyName = .ok (some r) ∧
      r.name = String.ofList name.chars ∧ r.kind = "entity" ∧ r.generics = [] ∧
      r.ports.map portFacts = (n :: rest).map (·.port.facts) := by
  have written : Source.withoutComments (String.ofList (printedEntity name n rest)) =
      String.ofList ((entityLayout name n rest).text ++ []) := by
    rw [Source.withoutComments, String.toList_ofList, blankComments_printedEntity, append_nil]
  obtain ⟨r, found, named, kind, generics, ports⟩ :=
    interface_of_written (entityLayout name n rest) (Or.inl rfl) written
  refine ⟨r, found, named, kind, generics, ?_⟩
  have first := n.opensLine_layout (show newLine.chars.getLast? = some '\n' from rfl) true rest
  rw [ports, show (entityLayout name n rest).ports = n.layout newLine rest :: laterPorts n rest from rfl, linePorts,
    if_pos first, linePorts_false, filter_eq_self.mpr (opensLine_laterPorts n rest), map_cons,
    n.facts_layout, facts_laterPorts, map_cons]

/-- A port whose type is the word `entity` is reported without its name. -/
theorem port_of_type_entity_unnamed :
    (interface? "entity e is\nport (\na : in entity;\nb : in bit\n);\nend e;" Node.anyName).toOption.map
      (Option.map fun r => r.ports.map fun d => (d.name, d.text)) =
      some (some [("", some "entity "), ("b", some "port b: in bit")]) := by
  decide +kernel

end VhdlWorkbench.Design

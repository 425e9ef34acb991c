import VhdlWorkbench.Layout.Entity
import VhdlWorkbench.Layout.Objects
import VhdlWorkbench.Proofs.BindingRows
import VhdlWorkbench.Proofs.Outcomes

/-!
The two clauses of an entity, which are laid out line by line in the same way.
-/

namespace VhdlWorkbench.Layout

open Pattern Pattern.Node Design Text Regex

/-- The clauses of an entity. -/
inductive Clause where
  | generic
  | port
deriving DecidableEq, Repr

namespace Clause

def group : Clause → String
  | .generic => "generic"
  | .port => "port"

def row : Clause → Node
  | .generic => genericRow
  | .port => portRow

def columns (content : String) : Clause → ClauseColumns
  | .generic =>
    clauseColumns ((ofNode blockRows genericRow).matches_ (Source.withoutComments content)) "init"
  | .port =>
    clauseColumns ((ofNode blockRows portRow).matches_ (Source.withoutComments content)) "init_val"

def renderRow (level : Int) (w : ClauseColumns) : Clause → Match → String
  | .generic => renderGeneric level w
  | .port => renderPort level w

def renderComment (indent : Indentation) (level : Int) (w : ClauseColumns) : Clause → Match → Except Fault String
  | .generic => renderGenericComment indent w
  | .port => renderPortComment indent level w

def renderLine (indent : Indentation) (level : Int) (w : ClauseColumns) (clause : Clause) (line : String) :
    Except Fault String :=
  match (ofNode oneRow clause.row).matchStart? line with
  | some m => .ok (clause.renderRow level w m)
  | none =>
    match commentLine.matchStart? line with
    | some m => clause.renderComment indent level w m
    | none => .ok line

def frame (level : Int) (lines : List String) : Clause → String
  | .generic => tabs (level + 1) ++ "generic (\n" ++ unlines lines ++ tabs (level + 1) ++ ");\n"
  | .port => tabs (level + 1) ++ "port (\n" ++ unlines lines ++ tabs (level + 1) ++ ");\n"

def align (indent : Indentation) (level : Int) (content : String) : Clause → Except Fault String
  | .generic => alignGenerics indent level content
  | .port => alignPorts indent level content

theorem align_eq (indent : Indentation) (level : Int) (content : String) (clause : Clause) :
    clause.align indent level content =
      ((lines (trim content)).mapM (clause.renderLine indent level (clause.columns content))).bind
        fun lines => .ok (clause.frame level lines) := by
  cases clause <;> rfl

end Clause

section Rows

variable {text : Array Char} {o : Options} {t t' : Thread} [Folds o]

theorem memberAccepts_mark {p c : Char} (low : p.toNat < 65) : memberAcceptsLetter o p c = true ↔ c = p := by
  have code : foldCode o p.toNat ≤ 0xffff := by
    simp only [foldCode, Full.full, Bool.false_and, Bool.false_eq_true, ↓reduceIte, lowerCode, show p.toNat < 128 by omega,
      Nat.not_le.mpr low, decide_false]
    omega
  rw [memberAcceptsLetter, if_pos code, ← charAccepts_mark (o := o) low, charAccepts, if_pos Folds.fold]

theorem accepts_isSpace (c : Char) : space.accepts o c = isSpace c := by
  have blank := memberAccepts_mark (o := o) (p := ' ') (c := c) (by decide)
  have tab := memberAccepts_mark (o := o) (p := '\t') (c := c) (by decide)
  rw [Bool.eq_iff_iff]
  simp [space, Single.accepts, SetItem.accepts, Folds.fold, blank, tab, isSpace]

theorem Clause.word_of_row (clause : Clause) {pos : Nat} {nonempty : Bool} {m : Match}
    (found : (ofNode o clause.row).matchAt text pos nonempty = some m) :
    ∃ (spaces : List Char) (c : Char) (rest : List Char), textFrom text pos = spaces ++ c :: rest ∧
      (∀ d ∈ spaces, isSpace d = true) ∧ isWord c = true := by
  obtain ⟨u, reached, -⟩ := matchAt_reaches found
  obtain ⟨v, w, ⟨_, ⟨-, rfl⟩, blanks⟩, word⟩ : ∃ v w,
      Reaches text (start ++ spacing) o ⟨pos, Array.replicate (ofNode o clause.row).slots none⟩ v ∧
        Reaches text identifier o v w := by
    cases clause with
    | generic =>
      obtain ⟨_, v, front, w, word, -⟩ := reached.front 13
      exact ⟨v, w, front, word⟩
    | port =>
      obtain ⟨_, v, front, _, ⟨w, word, -⟩, -⟩ := reached.front 14
      exact ⟨v, w, front, word⟩
  obtain ⟨spaces, here, taken, -, -, rfl⟩ := reaches_run blanks
  obtain ⟨name, there, -⟩ := reaches_identifier word
  obtain ⟨c, cs, letters⟩ := List.exists_cons_of_ne_nil name.nonempty
  refine ⟨spaces, c, cs ++ textFrom text w.pos, by rw [here, there, letters, List.cons_append], fun d member => ?_, ?_⟩
  · rw [← accepts_isSpace (o := o), taken d member]
  · exact name.wordy c (by simp [letters])

end Rows

def entityHead (level : Int) (m : Match) : String :=
  tabs level ++ m.named "type" ++ " " ++ m.named "name" ++ (if (m.named "is").isEmpty then "" else " is") ++ "\n"

def entityFoot (level : Int) (m : Match) : String :=
  tabs level ++ join " " (words (m.named "ending")) ++ ";"

section Entity

variable {indent : Indentation} {level : Int} {text : String} {m : Match}

def Clause.part (indent : Indentation) (level : Int) (m : Match) (clause : Clause) : Except Fault String :=
  if (m.named clause.group).isEmpty then .ok "" else clause.align indent level (m.named clause.group)

theorem alignEntity_of_parts {generics ports : String} (found : entityBlock.search? text = some m)
    (first : Clause.generic.part indent level m = .ok generics) (second : Clause.port.part indent level m = .ok ports) :
    alignEntity indent text level = .ok (entityHead level m ++ generics ++ ports ++ entityFoot level m) := by
  have whole : alignEntity indent text level = (Clause.generic.part indent level m).bind fun generics =>
      (Clause.port.part indent level m).bind fun ports => .ok (entityHead level m ++ generics ++ ports ++ tabs level ++
        join " " (words (m.named "ending")) ++ ";") := by
    simp only [alignEntity, found, Clause.part, Clause.group, Clause.align]
    by_cases none : (m.named "generic").isEmpty = true <;> by_cases none' : (m.named "port").isEmpty = true <;>
      simp only [none, none', ↓reduceIte, Bool.false_eq_true] <;> rfl
  rw [whole, first, second]
  simp only [Except.bind, entityFoot, String.append_assoc]

theorem alignEntity_of_texts (head generic port foot generics ports : String)
    (found : (entityBlock.search? text).map (fun m => (entityHead level m, m.named "generic", m.named "port",
      entityFoot level m)) = some (head, generic, port, foot))
    (first : (if generic.isEmpty then .ok "" else alignGenerics indent level generic) = Except.ok generics)
    (second : (if port.isEmpty then .ok "" else alignPorts indent level port) = Except.ok ports) :
    alignEntity indent text level = .ok (head ++ generics ++ ports ++ foot) := by
  obtain ⟨m, here, texts⟩ := Option.map_eq_some_iff.mp found
  simp only [Prod.mk.injEq] at texts
  obtain ⟨rfl, rfl, rfl, rfl⟩ := texts
  exact alignEntity_of_parts here first second

variable (levelled : indent.useSpaces = true → indent.tabSize ≠ 0)

include levelled

theorem Indentation.exists_level (text : String) : ∃ depth, indent.level text = .ok depth := by
  unfold Indentation.level
  split
  · next spaces => exact ⟨_, if_neg (levelled spaces)⟩
  · exact ⟨_, rfl⟩

theorem Clause.exists_renderLine (level : Int) (w : ClauseColumns) (clause : Clause) (line : String) :
    ∃ new, clause.renderLine indent level w line = .ok new := by
  unfold renderLine
  split
  · exact ⟨_, rfl⟩
  · split
    · next m _ =>
      obtain ⟨depth, deep⟩ := Indentation.exists_level levelled (m.named "space")
      cases clause with
      | generic => exact ⟨_, by simp only [renderComment, renderGenericComment, deep]; rfl⟩
      | port => exact ⟨_, by simp only [renderComment, renderPortComment, deep]; rfl⟩
    · exact ⟨_, rfl⟩

theorem Clause.exists_align (level : Int) (content : String) (clause : Clause) :
    ∃ lines, (Text.lines (Text.trim content)).mapM (clause.renderLine indent level (clause.columns content)) = .ok lines ∧
      clause.align indent level content = .ok (clause.frame level lines) := by
  obtain ⟨lines, done⟩ := mapM_total fun line (_ : line ∈ lines (trim content)) =>
    clause.exists_renderLine levelled level (clause.columns content) line
  exact ⟨lines, done, by rw [align_eq, done]; rfl⟩

/-- An entity that is found is written anew, and each of its clauses is laid out line by line. -/
theorem Clause.exists_entity (level : Int) (found : entityBlock.search? text = some m) (clause : Clause)
    (written : m.named clause.group ≠ "") :
    ∃ (head foot : String) (lines : List String),
      (Text.lines (Text.trim (m.named clause.group))).mapM
          (clause.renderLine indent level (clause.columns (m.named clause.group))) = .ok lines ∧
        alignEntity indent text level = .ok (head ++ clause.frame level lines ++ foot) := by
  have each (clause : Clause) : ∃ new, clause.part indent level m = .ok new := by
    unfold part
    split
    · exact ⟨_, rfl⟩
    · obtain ⟨lines, -, done⟩ := clause.exists_align levelled level (m.named clause.group)
      exact ⟨_, done⟩
  obtain ⟨lines, rendered, aligned⟩ := clause.exists_align levelled level (m.named clause.group)
  have own : clause.part indent level m = .ok (clause.frame level lines) := by
    rw [part, if_neg (by simpa using written), aligned]
  cases clause with
  | generic =>
    obtain ⟨ports, other⟩ := each .port
    refine ⟨entityHead level m, ports ++ entityFoot level m, lines, rendered, ?_⟩
    rw [alignEntity_of_parts found own other]
    simp only [String.append_assoc]
  | port =>
    obtain ⟨generics, other⟩ := each .generic
    exact ⟨entityHead level m ++ generics, entityFoot level m, lines, rendered, alignEntity_of_parts found other own⟩

end Entity

end VhdlWorkbench.Layout

import Mathlib
import VhdlWorkbench.Proofs.BindingColumns
import VhdlWorkbench.Proofs.Clauses

/-!
Declarations in columns: when their ranges, assignment signs and ends stand in common columns.
-/

namespace VhdlWorkbench.Layout

open Pattern List String Text
open Regex (ofNode)

/-- The parts of a row that the columns depend on, besides its names. -/
def columnParts : List String :=
  ["qual", "dir", "type", "range", "init", "init_val"]

/-- The texts of these parts, with the names without the blanks around them. -/
def columnTexts (m : Match) : List String :=
  Text.trim (m.named "name") :: columnParts.map m.named

/-- A text is read line by line: each of its lines is a row by itself, the rows that are found in the text have the
same parts, and some of these have no blanks around them. -/
structure ReadByLine (row : Node) (bare : List String) (text : String) (lines : List String) (rows : List Match) :
    Prop where
  alone : Forall₂ (fun line m => (ofNode oneRow row).matchStart? line = some m) lines rows
  together : ((ofNode blockRows row).matches_ text).map columnTexts = rows.map columnTexts
  trim : ∀ m ∈ rows, ∀ part ∈ bare, Text.trim (m.named part) = m.named part

/-- The initial value column of a row: an assignment sign with the value, or blanks. -/
def valueColumn (width : Nat) : Option String → String
  | none => spaces width
  | some value => " := " ++ padRight (width - 4) value

section Widths

variable {row : Node} {bare : List String} {text : String} {lines : List String} {rows found : List Match} {m : Match}

theorem forall₂_filterMap {f : String → Option Match} (all : ∀ line ∈ lines, (f line).isSome = true) :
    Forall₂ (fun line m => f line = some m) lines (lines.filterMap f) := by
  induction lines with
  | nil => exact .nil
  | cons line lines ih =>
    obtain ⟨m, given⟩ := Option.isSome_iff_exists.mp (all line mem_cons_self)
    rw [filterMap_cons_some given]
    exact .cons given (ih fun line member => all line (mem_cons_of_mem _ member))

/-- Each line is laid out as what its row makes of it. -/
theorem ReadByLine.mapM_lines (read : ReadByLine row bare text lines rows) {f : String → Except Fault String}
    {g : Match → String}
    (each : ∀ line, ∀ m ∈ rows, (ofNode oneRow row).matchStart? line = some m → f line = .ok (g m)) :
    lines.mapM f = .ok (rows.map g) := by
  have alone := read.alone
  clear read
  induction alone with
  | nil => rfl
  | cons first _ ih =>
    rw [mapM_cons, each _ _ mem_cons_self first,
      ih fun line m member => each line m (mem_cons_of_mem _ member)]
    rfl

/-- What depends only on some texts of the rows is the same for rows with the same texts. -/
theorem map_of_texts {β : Type} {f : Match → β} {texts : Match → List String} (same : found.map texts = rows.map texts)
    (respects : ∀ m m', texts m = texts m' → f m = f m') : found.map f = rows.map f := by
  induction found generalizing rows with
  | nil =>
    obtain rfl : rows = [] := by simpa using same.symm
    rfl
  | cons m found ih =>
    cases rows with
    | nil => simp at same
    | cons m' rows =>
      obtain ⟨first, rest⟩ := cons.inj same
      rw [map_cons, map_cons, respects m m' first, ih rest]

theorem named_of_columnTexts {m' : Match} (same : columnTexts m = columnTexts m') {part : String}
    (listed : part ∈ columnParts) : m.named part = m'.named part :=
  map_inj_left.mp (cons.inj same).2 part listed

theorem columnWidth_of_columnTexts (same : found.map columnTexts = rows.map columnTexts) {part : String}
    (listed : part = "name" ∨ part ∈ columnParts) : columnWidth found part = columnWidth rows part := by
  have lengths := map_of_texts same fun m m' same => congrArg String.length
    (show Text.trim (m.named part) = Text.trim (m'.named part) by
      rcases listed with rfl | listed
      · exact (cons.inj same).1
      · rw [named_of_columnTexts same listed])
  simpa only [columnWidth, widest, List.map_map, Function.comp_def] using congrArg (List.foldl max 0) lengths

/-- A column has room for the parts of every row. -/
theorem length_trim_le_columnWidth (part : String) (member : m ∈ rows) :
    (Text.trim (m.named part)).length ≤ columnWidth rows part :=
  columnWidth_le_iff.mp (Nat.le_refl _) m member

/-- Rows have something at one column exactly if each two of them that have it have it at the same column. -/
theorem exists_column_iff (has : Match → Prop) (column : Match → Nat) :
    (∃ place, ∀ m ∈ rows, has m → column m = place) ↔
      ∀ m ∈ rows, ∀ m' ∈ rows, has m → has m' → column m = column m' := by
  constructor
  · rintro ⟨place, here⟩ m member m' member' given given'
    rw [here m member given, here m' member' given']
  · intro same
    by_cases none : ∃ m ∈ rows, has m
    · obtain ⟨m, member, given⟩ := none
      exact ⟨column m, fun m' member' given' => same m' member' m member given' given⟩
    · exact ⟨0, fun m member given => absurd ⟨m, member, given⟩ none⟩

theorem exists_common_iff (column : Match → Nat) :
    (∃ place, ∀ m ∈ rows, column m = place) ↔ ∀ m ∈ rows, ∀ m' ∈ rows, column m = column m' := by
  simpa using exists_column_iff (fun _ => True) column

theorem length_padRight (width : Nat) (s : String) : (padRight width s).length = max width s.length := by
  simp only [padRight, spaces, String.length_append, String.length_ofList, List.length_replicate]
  omega

theorem part?_eq (m : Match) (part : String) :
    part? m part = if m.named part = "" then none else some (m.named part) := by
  unfold part? Match.named
  cases m.named? part with
  | none => rfl
  | some text => by_cases empty : text = "" <;> simp [empty]

variable (read : ReadByLine row bare text lines rows) (member : m ∈ rows) {part : String} (listed : part ∈ bare)

include read member listed

theorem ReadByLine.length_le : (m.named part).length ≤ columnWidth rows part := by
  have room := length_trim_le_columnWidth part member
  rwa [read.trim m member part listed] at room

/-- A part is as wide as its column exactly if no other is wider. -/
theorem ReadByLine.length_eq_iff :
    (m.named part).length = columnWidth rows part ↔ ∀ m' ∈ rows, (m'.named part).length ≤ (m.named part).length := by
  have room := read.length_le member listed
  have widest : columnWidth rows part ≤ (m.named part).length ↔
      ∀ m' ∈ rows, (m'.named part).length ≤ (m.named part).length := by
    rw [columnWidth_le_iff]
    exact forall₂_congr fun m' member' => by rw [read.trim m' member' part listed]
  rw [← widest]
  omega

/-- The initial value column is as wide for every row, and shows the value if there is one. -/
theorem ReadByLine.initialColumn_eq :
    initialColumn (initialWidth rows part) (part? m part) = valueColumn (initialWidth rows part) (part? m part) ∧
      (valueColumn (initialWidth rows part) (part? m part)).length = initialWidth rows part := by
  rw [part?_eq]
  by_cases empty : m.named part = ""
  · by_cases zero : initialWidth rows part = 0 <;> simp [empty, initialColumn, valueColumn, zero, spaces]
  · have long : 0 < (m.named part).length := Nat.pos_of_ne_zero (by simpa using empty)
    have room := read.length_le member listed
    have wide : initialWidth rows part = columnWidth rows part + 4 := if_pos (by omega)
    have sign : " := ".length = 4 := rfl
    rw [if_neg empty]
    refine ⟨if_neg (by omega), ?_⟩
    rw [valueColumn, String.length_append, length_padRight]
    omega

end Widths

section Objects

variable {text : String} {lines : List String} {rows : List Match} {m : Match}

/-- The parts of a declaration that are written as they are. -/
def objectParts : List String :=
  ["qual", "type", "range", "init_val"]

/-- What stands before the initial value column of a declaration. -/
def objectFront (level : Int) (rows : List Match) (m : Match) : String :=
  let w := objectColumns rows
  tabs level ++ padRight w.qualifier (m.named "qual") ++ " " ++
    Text.padRight w.name (Text.trim (m.named "name")) ++ " : " ++ Text.padRight w.type (m.named "type") ++
    rangeColumn w.range (m.named "range")

/-- A declaration in its columns. -/
def objectLine (level : Int) (rows : List Match) (m : Match) : String :=
  objectFront level rows m ++ valueColumn (initialWidth rows "init_val") (part? m "init_val") ++ ";" ++
    (if (m.named "comment").isEmpty then "" else " --" ++ Text.trimRight (m.named "comment"))

/-- The range has the word, so that it is set off by a space, and no range of the rows is longer. -/
def FillsRange (rows : List Match) (m : Match) : Prop :=
  hasRangeWord (m.named "range") = true ∧ ∀ m' ∈ rows, (m'.named "range").length ≤ (m.named "range").length

instance (rows : List Match) (m : Match) : Decidable (FillsRange rows m) :=
  inferInstanceAs (Decidable (_ ∧ _))

theorem objectColumns_of_columnTexts {found : List Match} (same : found.map columnTexts = rows.map columnTexts) :
    objectColumns found = objectColumns rows := by
  have width (part : String) (listed : part = "name" ∨ part ∈ columnParts) := columnWidth_of_columnTexts same listed
  simp only [objectColumns, initialWidth, width "qual" (by decide), width "name" (by decide), width "type" (by decide),
    width "range" (by decide), width "init_val" (by decide)]

/-- A range takes the width of its column, and one more if it fills the column and is set off by a space. -/
theorem length_rangeColumn {width : Nat} {range : String} (fits : range.length ≤ width) :
    (rangeColumn width range).length =
      width + if hasRangeWord range = true ∧ range.length = width then 1 else 0 := by
  unfold rangeColumn
  split
  · next zero =>
    obtain rfl : range = "" := by simpa [zero] using fits
    simp [zero, hasRangeWord, show Text.contains "" "range" = false by decide]
  · split
    · next empty =>
      obtain rfl : range = "" := by simpa using empty
      simp [Text.spaces, hasRangeWord, show Text.contains "" "range" = false by decide]
    · have one : " ".length = 1 := rfl
      by_cases worded : hasRangeWord range = true <;> by_cases full : range.length = width <;>
        simp only [worded, full, and_self, and_false, and_true, Bool.false_eq_true, ↓reduceIte, String.length_append,
          length_padRight, one] <;> omega

theorem add_one_eq_iff {n : Nat} {P Q : Prop} [Decidable P] [Decidable Q] :
    (n + if P then 1 else 0) = (n + if Q then 1 else 0) ↔ (P ↔ Q) := by
  by_cases p : P <;> by_cases q : Q <;> simp [p, q]

section Read

variable (read : ReadByLine objectRow objectParts text lines rows) (level : Int)

include read

theorem length_objectFront (member : m ∈ rows) :
    (objectFront level rows m).length = (tabs level).length + columnWidth rows "qual" +
      columnWidth rows "name" + columnWidth rows "type" + columnWidth rows "range" + 4 +
        if hasRangeWord (m.named "range") = true ∧ (m.named "range").length = columnWidth rows "range" then 1
        else 0 := by
  have qualifier := read.length_le member (by decide : "qual" ∈ objectParts)
  have name := length_trim_le_columnWidth "name" member
  have type := read.length_le member (by decide : "type" ∈ objectParts)
  have range := length_rangeColumn (read.length_le member (by decide : "range" ∈ objectParts))
  have one : " ".length = 1 := rfl
  have three : " : ".length = 3 := rfl
  simp only [objectFront, objectColumns, String.length_append, length_padRight, range, one, three]
  omega

theorem length_objectFront_eq_iff {m' : Match} (member : m ∈ rows) (member' : m' ∈ rows) :
    (objectFront level rows m).length = (objectFront level rows m').length ↔
      (FillsRange rows m ↔ FillsRange rows m') := by
  rw [length_objectFront read level member, length_objectFront read level member', add_one_eq_iff, FillsRange,
    FillsRange, read.length_eq_iff member (by decide), read.length_eq_iff member' (by decide)]

theorem renderObject_eq {line : String} (member : m ∈ rows)
    (alone : (ofNode oneRow objectRow).matchStart? line = some m) :
    renderObject level (objectColumns rows) line = objectLine level rows m := by
  have value := (read.initialColumn_eq member (by decide : "init_val" ∈ objectParts)).1
  rw [renderObject, alone]
  simp only [objectLine, objectFront, objectColumns, value]

theorem map_renderObject :
    lines.map (renderObject level (objectColumns rows)) = rows.map (objectLine level rows) := by
  refine Except.ok.inj (ε := Fault) (Eq.trans ?_ (read.mapM_lines fun line m member alone =>
    congrArg Except.ok (renderObject_eq read level member alone)))
  exact (mapM_pure (m := Except Fault)).symm

end Read

end Objects

section Generics

variable {text : String} {lines : List String} {rows : List Match} {m : Match}

/-- The parts of a generic that are written as they are. -/
def genericParts : List String :=
  ["name", "type", "range", "init"]

/-- The range column of a generic: it is padded to one less than its width, as if it were always set off by a space. -/
def genericRange (width : Nat) (range : String) : String :=
  if width = 0 then ""
  else if range.isEmpty then spaces width
  else (if hasRangeWord range then " " else "") ++ padRight (width - 1) range

/-- What stands before the initial value column of a generic. -/
def genericFront (level : Int) (rows : List Match) (m : Match) : String :=
  let w := clauseColumns rows "init"
  tabs (level + 2) ++ padRight w.name (m.named "name") ++ " : " ++ padRight w.type (m.named "type") ++
    genericRange w.range (m.named "range")

/-- A generic in its columns. -/
def genericLine (level : Int) (rows : List Match) (m : Match) : String :=
  genericFront level rows m ++ valueColumn (initialWidth rows "init") (part? m "init") ++ endMark m ++
    (if (m.named "comment").isEmpty then "" else " -- " ++ Text.trim (m.named "comment"))

/-- The range has no word to be set off by a space, and another range has the word or is longer. -/
def FallsShort (rows : List Match) (m : Match) : Prop :=
  m.named "range" ≠ "" ∧ hasRangeWord (m.named "range") = false ∧
    ((∃ m' ∈ rows, hasRangeWord (m'.named "range") = true) ∨
      ∃ m' ∈ rows, (m.named "range").length < (m'.named "range").length)

instance (rows : List Match) (m : Match) : Decidable (FallsShort rows m) :=
  inferInstanceAs (Decidable (_ ∧ _ ∧ (_ ∨ _)))

theorem clauseColumns_of_columnTexts {found : List Match} (same : found.map columnTexts = rows.map columnTexts)
    {initial : String} (listed : initial = "name" ∨ initial ∈ columnParts) :
    clauseColumns found initial = clauseColumns rows initial := by
  have words := congrArg (·.any id) (map_of_texts same fun m m' same =>
    congrArg hasRangeWord (named_of_columnTexts same (by decide : "range" ∈ columnParts)))
  simp only [any_map, Function.comp_def, id_eq] at words
  have width (part : String) (listed : part = "name" ∨ part ∈ columnParts) := columnWidth_of_columnTexts same listed
  simp only [clauseColumns, initialWidth, width "name" (by decide), width "dir" (by decide), width "type" (by decide),
    width "range" (by decide), width initial listed, words]

theorem length_genericRange {width : Nat} {range : String} (fits : range.length ≤ width) :
    (genericRange width range).length =
      if range = "" then width else (if hasRangeWord range then 1 else 0) + max (width - 1) range.length := by
  unfold genericRange
  by_cases empty : range = ""
  · by_cases zero : width = 0 <;> simp [empty, zero, spaces]
  · have long : 0 < range.length := Nat.pos_of_ne_zero (by simpa using empty)
    rw [if_neg (by omega), if_neg (by simpa using empty), if_neg empty, String.length_append, length_padRight]
    split <;> rfl

section Read

variable (read : ReadByLine genericRow genericParts text lines rows)

include read

/-- A range without the word takes one less than the width of the column if some range has the word or is longer; all
else takes the width of the column. -/
theorem genericRange_cases (member : m ∈ rows) :
    let width := (clauseColumns rows "init").range
    (FallsShort rows m → (genericRange width (m.named "range")).length + 1 = width) ∧
      (¬FallsShort rows m → (genericRange width (m.named "range")).length = width) := by
  intro width
  have room := read.length_le member (by decide : "range" ∈ genericParts)
  have widest := read.length_eq_iff member (by decide : "range" ∈ genericParts)
  have words : (rows.any fun r => hasRangeWord (r.named "range")) = true ↔
      ∃ m' ∈ rows, hasRangeWord (m'.named "range") = true := any_eq_true
  have longer : (∃ m' ∈ rows, (m.named "range").length < (m'.named "range").length) ↔
      (m.named "range").length ≠ columnWidth rows "range" := by
    simp [widest]
  rw [length_genericRange (room.trans (Nat.le_add_right _ _) : _ ≤ width)]
  simp only [FallsShort, longer, ← words, width, clauseColumns]
  by_cases empty : m.named "range" = ""
  · simp [empty]
  have long : 0 < (m.named "range").length := Nat.pos_of_ne_zero (by simpa using empty)
  by_cases worded : hasRangeWord (m.named "range") = true
  · have any := words.mpr ⟨m, member, worded⟩
    simp only [empty, worded, any, ↓reduceIte]
    exact ⟨fun short => absurd short.2.1 (by simp), fun _ => by omega⟩
  · simp only [empty, worded, Bool.false_eq_true, ↓reduceIte]
    split
    · next any => exact ⟨fun _ => by omega, fun full => absurd ⟨empty, by simp, Or.inl any⟩ full⟩
    · next none =>
      refine ⟨fun short => ?_, fun full => ?_⟩
      · have := short.2.2.resolve_left none
        omega
      · have : (m.named "range").length = columnWidth rows "range" :=
          not_not.mp fun less => full ⟨empty, by simp, Or.inr less⟩
        omega

theorem length_genericFront (level : Int) (member : m ∈ rows) :
    (genericFront level rows m).length = (tabs (level + 2)).length + columnWidth rows "name" + 3 +
      columnWidth rows "type" + (genericRange (clauseColumns rows "init").range (m.named "range")).length := by
  have name := read.length_le member (by decide : "name" ∈ genericParts)
  have type := read.length_le member (by decide : "type" ∈ genericParts)
  have three : " : ".length = 3 := rfl
  simp only [genericFront, String.length_append, length_padRight, three]
  simp only [clauseColumns]
  omega

theorem length_genericFront_eq_iff (level : Int) {m' : Match} (member : m ∈ rows) (member' : m' ∈ rows) :
    (genericFront level rows m).length = (genericFront level rows m').length ↔
      (FallsShort rows m ↔ FallsShort rows m') := by
  obtain ⟨short, full⟩ := genericRange_cases read member
  obtain ⟨short', full'⟩ := genericRange_cases read member'
  rw [length_genericFront read level member, length_genericFront read level member', Nat.add_left_cancel_iff]
  by_cases one : FallsShort rows m <;> by_cases two : FallsShort rows m' <;> simp only [one, two, true_implies,
    not_true_eq_false, not_false_eq_true, iff_true, iff_false] at short full short' full' ⊢ <;> omega

theorem renderLine_generic (indent : Indentation) (level : Int) {line : String} (member : m ∈ rows)
    (alone : (ofNode oneRow genericRow).matchStart? line = some m) :
    Clause.generic.renderLine indent level (clauseColumns rows "init") line = .ok (genericLine level rows m) := by
  have value := (read.initialColumn_eq member (by decide : "init" ∈ genericParts)).1
  have found : (ofNode oneRow Clause.generic.row).matchStart? line = some m := alone
  rw [Clause.renderLine, found]
  simp only [Clause.renderRow, renderGeneric, genericLine, genericFront, genericRange, clauseColumns, value]

end Read

end Generics

section Ports

variable {indent : Indentation} {text : String} {lines : List String} {entity m : Match} {rows rows' : List Match}

/-- The parts of a port that are written as they are. -/
def portParts : List String :=
  ["dir", "type", "range", "init_val"]

/-- What is written of a port. -/
def writtenParts (m : Match) : List String :=
  m.named "end" :: m.named "comment" :: columnTexts m

/-- The space that sets a range off. -/
def rangeGap (range : String) : String :=
  if hasRangeWord range then " " else ""

/-- The columns of a port: its names, the colon, the direction, the type, the range, the value and the end mark. -/
def portPieces (level : Int) (rows : List Match) (m : Match) : List String :=
  let w := clauseColumns rows "init_val"
  [tabs (level + 2) ++ Text.padRight w.name (Text.trim (m.named "name")), " : ",
    padRight w.direction (m.named "dir") ++ " ", padRight w.type (m.named "type"),
    rangeGap (m.named "range") ++ padRight (w.range - (rangeGap (m.named "range")).length) (m.named "range"),
    valueColumn w.initial (part? m "init_val"), endMark m]

/-- A port in its columns. -/
def portLine (level : Int) (rows : List Match) (m : Match) : String :=
  join (portPieces level rows m) ++
    (if (m.named "comment").isEmpty then "" else " --" ++ Text.trimRight (m.named "comment"))

/-- A text has an entity with ports, which are read line by line, and without generics. -/
structure ReadPorts (text : String) (entity : Match) (rows : List Match) : Prop where
  found : entityBlock.search? text = some entity
  alone : entity.named "generic" = ""
  written : entity.named "port" ≠ ""
  read : ReadByLine portRow portParts (Source.withoutComments (entity.named "port"))
    (Text.lines (Text.trim (entity.named "port"))) rows

theorem map_portLine (level : Int) (same : rows.map writtenParts = rows'.map writtenParts) :
    rows.map (portLine level rows) = rows'.map (portLine level rows') := by
  have columns := clauseColumns_of_columnTexts (map_of_texts same fun m m' same =>
    (cons.inj (cons.inj same).2).2) (by decide : "init_val" = "name" ∨ "init_val" ∈ columnParts)
  have line : portLine level rows = portLine level rows' := by
    funext m
    simp only [portLine, portPieces, columns]
  rw [line]
  refine map_of_texts same fun m m' same => ?_
  obtain ⟨mark, comment, same⟩ : _ ∧ _ ∧ columnTexts m = columnTexts m' := by simpa [writtenParts] using same
  have name := (cons.inj same).1
  have part (part : String) (listed : part ∈ columnParts) := named_of_columnTexts same listed
  simp only [portLine, portPieces, endMark, part?_eq, name, mark, comment, part "dir" (by decide),
    part "type" (by decide), part "range" (by decide), part "init_val" (by decide)]

theorem length_rangeGap (range : String) : (rangeGap range).length = if hasRangeWord range then 1 else 0 := by
  unfold rangeGap
  split <;> rfl

theorem rangeColumn_of_fits {width : Nat} {range : String} (fits : (rangeGap range ++ range).length ≤ width) :
    rangeColumn width range = rangeGap range ++ padRight (width - (rangeGap range).length) range := by
  rw [String.length_append] at fits
  by_cases empty : range = ""
  · subst empty
    have none : rangeGap "" = "" := by decide
    by_cases zero : width = 0 <;> simp [rangeColumn, none, zero, padRight, spaces]
  · have long : 0 < range.length := Nat.pos_of_ne_zero (by simpa using empty)
    rw [rangeColumn, if_neg (by omega), if_neg (by simpa using empty), length_rangeGap]
    unfold rangeGap
    split <;> simp

section Read

variable (read : ReadByLine portRow portParts text lines rows) (member : m ∈ rows)

include read member

theorem length_gap_add_le :
    (rangeGap (m.named "range") ++ m.named "range").length ≤ (clauseColumns rows "init_val").range := by
  have room := read.length_le member (by decide : "range" ∈ portParts)
  rw [String.length_append, length_rangeGap]
  simp only [clauseColumns]
  split
  · next worded =>
    rw [if_pos (any_eq_true.mpr ⟨m, member, worded⟩)]
    omega
  · omega

/-- All columns of the ports have the widths of the clause. -/
theorem map_length_portPieces (level : Int) :
    (portPieces level rows m).map String.length =
      [(tabs (level + 2)).length + columnWidth rows "name", 3, columnWidth rows "dir" + 1, columnWidth rows "type",
        (clauseColumns rows "init_val").range, initialWidth rows "init_val", 1] := by
  have fits := length_gap_add_le read member
  rw [String.length_append] at fits
  have name : max (clauseColumns rows "init_val").name (Text.trim (m.named "name")).length = columnWidth rows "name" :=
    Nat.max_eq_left (length_trim_le_columnWidth "name" member)
  have direction : max (clauseColumns rows "init_val").direction (m.named "dir").length = columnWidth rows "dir" :=
    Nat.max_eq_left (read.length_le member (by decide))
  have type : max (clauseColumns rows "init_val").type (m.named "type").length = columnWidth rows "type" :=
    Nat.max_eq_left (read.length_le member (by decide))
  have range : (rangeGap (m.named "range")).length + max ((clauseColumns rows "init_val").range -
      (rangeGap (m.named "range")).length) (m.named "range").length = (clauseColumns rows "init_val").range := by
    omega
  have value : (valueColumn (clauseColumns rows "init_val").initial (part? m "init_val")).length =
      initialWidth rows "init_val" :=
    (read.initialColumn_eq member (by decide)).2
  have mark : (endMark m).length = 1 := by
    unfold endMark
    split <;> rfl
  simp only [portPieces, map_cons, map_nil, String.length_append, length_padRight, name, direction, type,
    range, value, mark]
  rfl

theorem renderLine_port (indent : Indentation) (level : Int) {line : String}
    (alone : (ofNode oneRow portRow).matchStart? line = some m) :
    Clause.port.renderLine indent level (clauseColumns rows "init_val") line = .ok (portLine level rows m) := by
  have value := (read.initialColumn_eq member (by decide : "init_val" ∈ portParts)).1
  have bare : (part? m "init_val").map Text.trim = part? m "init_val" := by
    rw [part?_eq]
    split
    · rfl
    · exact congrArg some (read.trim m member "init_val" (by decide))
  have found : (ofNode oneRow Clause.port.row).matchStart? line = some m := alone
  rw [Clause.renderLine, found]
  simp only [Clause.renderRow, renderPort, portLine, portPieces, rangeColumn_of_fits (length_gap_add_le read member),
    bare]
  simp only [clauseColumns, value]
  simp [String.join, String.append_assoc]

end Read

theorem alignEntity_of_readPorts (here : ReadPorts text entity rows) (level : Int) :
    alignEntity indent text level = .ok (entityHead level entity ++
      Clause.port.frame level (rows.map (portLine level rows)) ++ entityFoot level entity) := by
  have columns : Clause.port.columns (entity.named "port") = clauseColumns rows "init_val" :=
    clauseColumns_of_columnTexts here.read.together (by decide)
  have generics : Clause.generic.part indent level entity = .ok "" := by
    rw [Clause.part, if_pos (by simp [Clause.group, here.alone])]
  have ports : Clause.port.part indent level entity =
      .ok (Clause.port.frame level (rows.map (portLine level rows))) := by
    rw [Clause.part, if_neg (by simpa [Clause.group] using here.written), Clause.align_eq]
    rw [show Clause.port.group = "port" from rfl, columns, here.read.mapM_lines fun line m member alone =>
      renderLine_port here.read member indent level alone]
    rfl
  rw [alignEntity_of_parts here.found generics ports]
  simp

end Ports

end VhdlWorkbench.Layout

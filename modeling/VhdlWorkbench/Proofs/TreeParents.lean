import VhdlWorkbench.Proofs.Actions
import VhdlWorkbench.Proofs.Places
import VhdlWorkbench.Proofs.Tables
import VhdlWorkbench.Proofs.TreeText

/-!
Going from an instance in the text of a hierarchy to the type that it is listed under.
-/

namespace VhdlWorkbench.Hierarchy

open String (ofList toList_ofList)
open Design List String Text

section Command

open Editor Editor.Act

/-- The cursor stands on an instance of a hierarchy in a view that can still be asked about its text. -/
structure OnInstance (w : Workspace) (id : Nat) (b : Buffer) (p : Nat) : Prop where
  view : w.buffers.find? (·.id == id) = some b
  cursor : b.cursor = .ok (.point p)
  result : Text.contains (b.scopeName (b.word (.point p)).a) "text.result-vhdl" = true
  scope : Text.contains (b.scopeName (b.word (.point p)).a) "entity.name" = true
  free : w.questions + 4 ≤ questionLimit

variable {w : Workspace} {id p : Nat} {b : Buffer} {d : Destination}

theorem instanceDestination?_shallow {line : String}
    (few : ¬2 < line.length - (Text.trimLeft line).length) (h : HierarchyState) (label before before' : String) :
    instanceDestination? h label line before = instanceDestination? h label line before' := by
  unfold instanceDestination?
  simp only
  split
  · rfl
  · have two : line.length - (Text.trimLeft line).length = 2 := by omega
    simp [two]

def asked (w : Workspace) (n : Nat) : Workspace :=
  { w with questions := w.questions + n }

theorem yields_asked (on : OnInstance w id b p) {n : Nat} (few : n < 4) (r : Region) :
    Yields (textOf id r) (asked w n) (b.textOf r) (asked w (n + 1)) := by
  apply yields_textOf
  · exact on.view
  · have := on.free
    simp only [asked]
    omega

theorem outcome_gotoDefinition (on : OnInstance w id b p)
    (found : instanceDestination? w.hierarchy (b.textOf (b.word (.point p)))
      (b.textOf (b.line (b.word (.point p)))) (b.textOf ⟨0, (b.word (.point p)).a⟩) = some d) :
    ∃ n, outcome (gotoDefinition id) w = outcome (follow d) { w with questions := w.questions + n } := by
  have empty : (Region.point p).isEmpty = true := beq_self_eq_true _
  have scopes : Yields (scopeAt id (b.word (.point p)).a) w (b.scopeName (b.word (.point p)).a)
      (asked w 1) := by
    apply yields_scopeAt on.view
    have := on.free
    omega
  unfold gotoDefinition
  rw [outcome_of_yields (yields_buffer.mpr ⟨on.view, rfl⟩),
    outcome_of_yields (yields_lift.mpr ⟨on.cursor, rfl⟩)]
  simp only [empty, ↓reduceIte]
  rw [outcome_of_yields scopes, outcome_of_yields (yields_asked on (by omega) _),
    outcome_of_yields (yields_get.mpr ⟨rfl, rfl⟩)]
  simp only [on.result, on.scope, Bool.not_true, Bool.false_eq_true, ↓reduceIte]
  rw [outcome_of_yields (yields_asked on (by omega) _)]
  by_cases deep : 2 < (b.textOf (b.line (b.word (.point p)))).length -
      (Text.trimLeft (b.textOf (b.line (b.word (.point p))))).length
  · simp only [deep, ↓reduceIte]
    rw [outcome_of_yields (yields_asked on (by omega) _)]
    refine ⟨4, ?_⟩
    simp only [asked, found]
  · simp only [deep, ↓reduceIte]
    rw [outcome_of_yields (yields_pure.mpr ⟨rfl, rfl⟩), instanceDestination?_shallow deep _ _ ""
      (b.textOf ⟨0, (b.word (.point p)).a⟩)]
    refine ⟨3, ?_⟩
    simp only [asked, found]

end Command

def treeOf (e : Explored) (root : String) (rows : List Row) : String :=
  root ++ "\n" ++ join (rows.map (Row.text e))

def entryPlace (e : Explored) (root : String) (before : List Row) (row : Row) : Nat :=
  (treeOf e root before).length + 2 * row.level + 2

section ReadBack

variable {e : Explored} {root : String} {before after : List Row} {row : Row}

theorem toList_treeOf (e : Explored) (root : String) (rows : List Row) :
    (treeOf e root rows).toList = root.toList ++ '\n' :: rows.flatMap fun row => (row.text e).toList := by
  rw [treeOf, toList_append, toList_append, toList_join, flatMap_map,
    List.append_assoc]
  rfl

theorem toList_split (e : Explored) (root : String) (before after : List Row) (row : Row) :
    (treeOf e root (before ++ row :: after)).toList = (treeOf e root before).toList ++
      (row.chars e ++ '\n' :: after.flatMap fun row => (row.text e).toList) := by
  simp [toList_treeOf, toList_text]

theorem treeOf_closes (e : Explored) (root : String) (rows : List Row) {c : Char}
    (last : (treeOf e root rows).toList.getLast? = some c) : c = '\n' := by
  rcases eq_nil_or_concat rows with rfl | ⟨others, row, rfl⟩
  · simpa [toList_treeOf] using last.symm
  · rw [List.concat_eq_append, toList_split, List.flatMap_nil, ← List.append_assoc,
      getLast?_concat] at last
    exact (Option.some.inj last).symm

theorem toList_before (e : Explored) (root : String) (before : List Row) (row : Row) :
    charsBefore e root before row = (treeOf e root before).toList ++
      (List.replicate (2 * row.level) ' ' ++ [if row.isOpen e then '+' else '-', ' ']) := by
  simp [charsBefore, toList_treeOf]

theorem length_before (e : Explored) (root : String) (before : List Row) (row : Row) :
    (charsBefore e root before row).length = entryPlace e root before row := by
  rw [toList_before, entryPlace, List.length_append, List.length_append, List.length_replicate,
    length_toList, Nat.add_assoc]
  rfl

theorem blanks_of_line (e : Explored) (row : Row) :
    (ofList (row.chars e)).length - (Text.trimLeft (ofList (row.chars e))).length =
      2 * row.level := by
  have trimmed : dropBlanks (row.chars e) = (row.body e).toList := by
    have blank : ∀ c ∈ List.replicate (2 * row.level) ' ', Text.isBlank c = true := by
      intro c member
      rw [(mem_replicate.mp member).2]
      decide
    have solid : isBlank (if row.isOpen e then '+' else '-') = false := by
      split <;> decide
    rw [dropBlanks, Row.chars, dropWhile_append_of_pos blank, toList_body, dropWhile_cons_of_neg]
    simp [solid]
  rw [Text.trimLeft, toList_ofList, trimmed, length_ofList, length_ofList, Row.chars,
    List.length_append, List.length_replicate]
  omega

/-- The destination of the instance in a line, by the line and the text before the instance. -/
theorem instanceDestination?_of_split {left : Nat} (rootNamed : isName root = true)
    (named : ∀ row ∈ before, row.Named) (split : rowsBelow e left 1 root = before ++ row :: after)
    (h : Editor.HierarchyState) (shown : h.name = root) (label : String) :
    instanceDestination? h label (ofList (row.chars e))
        (ofList (charsBefore e root before row)) =
      some { unit := row.parent, label,
             file := if row.level = 1 then h.file else h.files.lookup row.parent } := by
  have low : 1 ≤ row.level := by
    apply le_level_of_mem
    rw [split]
    exact mem_append_right _ mem_cons_self
  rw [instanceDestination?, blanks_of_line]
  by_cases first : row.level = 1
  · have parent : row.parent = root := by
      rcases parent_of_split split with ⟨-, parent⟩ | ⟨earlier, opener, between, rfl, height, -, -, -⟩
      · exact parent
      · have : 1 ≤ opener.level := by
          apply le_level_of_mem
          rw [split]
          simp
        omega
    simp [first, parent, shown]
  · have deep := parentType?_of_split rootNamed named split (by omega)
    have notFew : ¬2 * row.level < 2 := by omega
    have notTwo : (2 * row.level == 2) = false := by
      rw [beq_eq_false_iff_ne]
      omega
    simp only [deep, first, notFew, notTwo, Bool.false_eq_true, ↓reduceIte]

/-- The instance of a line where it stands in a buffer with the hierarchy. -/
def entryRegion (e : Explored) (root : String) (before : List Row) (row : Row) : Editor.Region :=
  ⟨entryPlace e root before row, (entryPlace e root before row + row.entry.label.length : Nat)⟩

variable {b : Editor.Buffer}

section

variable (text : b.text = (treeOf e root (before ++ row :: after)).toList.toArray)
include text

theorem text_around :
    ∃ rest, b.text = (charsBefore e root before row ++ (row.entry.label.toList ++
      (entryGap.chars ++ rest))).toArray := by
  rw [text, toList_split, Row.chars, toList_body, toList_before]
  simp only [List.append_assoc, List.cons_append, List.nil_append]
  exact ⟨_, rfl⟩

theorem word_of_split (named : row.Named) {p : Nat} (low : entryPlace e root before row ≤ p)
    (high : p ≤ entryPlace e root before row + row.entry.label.length) :
    b.word (.point p) = entryRegion e root before row := by
  obtain ⟨rest, around⟩ := text_around text
  obtain ⟨label, labelled⟩ := exists_identifier named.1
  have letters : row.entry.label.toList = label.chars := by rw [labelled, toList_ofList]
  have width : row.entry.label.length = label.chars.length := by rw [← length_toList, letters]
  rw [width] at high
  rw [letters, ← take_append_drop (p - entryPlace e root before row) label.chars] at around
  have wordy : ∀ c ∈ label.chars.take (p - entryPlace e root before row) ++
      label.chars.drop (p - entryPlace e root before row), isWord c = true := by
    rw [take_append_drop]
    exact label.wordy
  have opens : ∀ c, (charsBefore e root before row).getLast? = some c → isWord c = false := by
    intro c last
    obtain rfl : c = ' ' := by simpa [toList_before] using last.symm
    decide
  have closes : Stops isWord (entryGap.chars ++ rest) := by
    rintro c ⟨⟩
    decide
  have found := Editor.Buffer.word_at around wordy opens closes
  have place : (charsBefore e root before row).length +
      (label.chars.take (p - entryPlace e root before row)).length = p := by
    rw [length_before, length_take]
    omega
  rw [place, take_append_drop, length_before] at found
  rw [found, entryRegion, width]

theorem textOf_entryRegion : b.textOf (entryRegion e root before row) = row.entry.label := by
  obtain ⟨rest, around⟩ := text_around text
  have found := Editor.Buffer.textOf_between around
  rwa [length_before, length_toList, ofList_toList] at found

theorem textOf_before :
    b.textOf ⟨0, (entryRegion e root before row).a⟩ = ofList (charsBefore e root before row) := by
  obtain ⟨rest, around⟩ := text_around text
  have found := Editor.Buffer.textOf_between (show b.text = ([] ++ (_ ++ _)).toArray from around)
  rw [length_before, length_nil, Nat.zero_add] at found
  exact found

theorem textOf_line (named : row.Named) :
    b.textOf (b.line (entryRegion e root before row)) = ofList (row.chars e) := by
  rw [toList_split] at text
  have single := newline_not_mem_chars (e := e) named
  have width : 2 * row.level + 2 + row.entry.label.length ≤ (row.chars e).length := by
    rw [Row.chars, toList_body]
    simp only [List.length_append, List.length_replicate, List.length_cons, length_toList]
    omega
  have line := Editor.Buffer.line_at text (fun c => treeOf_closes e root before) single
    (show 2 * row.level + 2 ≤ 2 * row.level + 2 + row.entry.label.length by omega) width
  rw [length_toList, ← Nat.add_assoc, ← Nat.add_assoc, ← Nat.add_assoc] at line
  rw [entryRegion, entryPlace, line, ← length_toList]
  exact Editor.Buffer.textOf_between text

end

/-- From any place in an instance of a hierarchy's text, the type is read back in whose list the instance was
printed. -/
theorem parent_read_back (e : Explored) (root : String) (rootNamed : isName root = true)
    (named : ∀ type, ∀ i ∈ (e.instances.lookup type).getD [], isName i.label = true ∧ isName i.unit = true)
    (shallow : ∀ n type, Below e root n type → n < maxLevel) :
    treeText? e root = some (treeOf e root (rowsBelow e maxLevel 1 root)) ∧
    ∀ before row after, rowsBelow e maxLevel 1 root = before ++ row :: after →
      row.entry ∈ (e.instances.lookup row.parent).getD [] ∧
      ∀ (b : Editor.Buffer) (h : Editor.HierarchyState) (p : Nat),
        b.contents = treeOf e root (rowsBelow e maxLevel 1 root) → h.name = root →
        entryPlace e root before row ≤ p → p ≤ entryPlace e root before row + row.entry.label.length →
        let r := b.word (.point p)
        let d : Destination :=
          { unit := row.parent, label := row.entry.label
            file := if row.level = 1 then h.file else h.files.lookup row.parent }
        b.textOf r = row.entry.label ∧
          instanceDestination? h (b.textOf r) (b.textOf (b.line r)) (b.textOf ⟨0, r.a⟩) = some d ∧
          ∀ w id, OnInstance w id b p → w.hierarchy = h → ∃ n, Editor.Act.outcome (gotoDefinition id) w =
            Editor.Act.outcome (follow d) { w with questions := w.questions + n } := by
  have printed : treeText? e root = some (treeOf e root (rowsBelow e maxLevel 1 root)) := by
    have lines : linesBelow? e (31 + 1) 1 root = _ :=
      linesBelow?_eq fun n type below => Nat.le_of_lt_succ (shallow n type below)
    rw [treeText?, show maxLevel = 31 + 1 from rfl, lines]
    rfl
  refine ⟨printed, fun before row after split => ?_⟩
  have rowNamed : ∀ row ∈ rowsBelow e maxLevel 1 root, row.Named := by
    intro row member
    exact named row.parent row.entry (entry_mem_of_mem member)
  have inside : row ∈ rowsBelow e maxLevel 1 root := by
    rw [split]
    simp
  refine ⟨entry_mem_of_mem inside, ?_⟩
  intro b h p contents shown low high
  have text : b.text = (treeOf e root (before ++ row :: after)).toList.toArray := by
    rw [← split, ← contents, Editor.Buffer.contents, toList_ofList]
  have earlier : ∀ row ∈ before, row.Named := fun row member =>
    rowNamed row (by rw [split]; exact mem_append_left _ member)
  have word := word_of_split text (rowNamed row inside) low high
  have label : b.textOf (b.word (.point p)) = row.entry.label := by
    rw [word, textOf_entryRegion text]
  have found := instanceDestination?_of_split rootNamed earlier split h shown row.entry.label
  rw [← textOf_line text (rowNamed row inside), ← textOf_before text, ← word] at found
  refine ⟨label, by rw [label, found], ?_⟩
  rintro w id on rfl
  exact outcome_gotoDefinition on (by rw [label, found])

end ReadBack

def forkedHierarchy : Explored where
  instances := [("top", [⟨"left", "inner"⟩, ⟨"right", "outer"⟩]), ("inner", [⟨"core", "cell"⟩]),
    ("outer", [⟨"core", "cell"⟩])]
  unresolved := ["cell"]

theorem forall_listed {e : Explored} {P : String → Instance → Prop}
    (all : ∀ entry ∈ e.instances, ∀ i ∈ entry.2, P entry.1 i) (type : String) :
    ∀ i ∈ (e.instances.lookup type).getD [], P type i := by
  intro i member
  cases found : e.instances.lookup type with
  | none => simp [found] at member
  | some instances =>
    rw [found, Option.getD_some] at member
    exact all (type, instances) (Table.mem_of_lookup found) i member

/-- How many steps lead on from a type of the forked hierarchy. -/
def height (type : String) : Nat :=
  if type = "top" then 2 else if type = "cell" then 0 else 1

theorem forked_named (type : String) :
    ∀ i ∈ (forkedHierarchy.instances.lookup type).getD [], isName i.label = true ∧ isName i.unit = true :=
  forall_listed (P := fun _ i => isName i.label = true ∧ isName i.unit = true) (by decide) type

theorem forked_shallow (n : Nat) (type : String) (below : Below forkedHierarchy "top" n type) :
    n < maxLevel := by
  have step (type : String) : ∀ i ∈ (forkedHierarchy.instances.lookup type).getD [],
      height i.unit < height type :=
    forall_listed (P := fun type i => height i.unit < height type) (by decide) type
  have bound {root type : String} {n : Nat} (below : Below forkedHierarchy root n type) : n ≤ height root := by
    induction below with
    | itself => exact Nat.zero_le _
    | @under root _ n i member deeper ih =>
      have := step root i member
      omega
  exact Nat.lt_of_le_of_lt (bound below) (by decide)

def forkedRow : Row :=
  ⟨2, "outer", ⟨"core", "cell"⟩⟩

def forkedBefore : List Row :=
  [⟨1, "top", ⟨"left", "inner"⟩⟩, ⟨2, "inner", ⟨"core", "cell"⟩⟩, ⟨1, "top", ⟨"right", "outer"⟩⟩]

/-- A view of the forked hierarchy with the cursor on the instance of its last line. -/
def forkedView : Editor.Buffer where
  id := 0
  base := "text.result-vhdl"
  text := (treeOf forkedHierarchy "top" (forkedBefore ++ [forkedRow])).toList.toArray
  spans := [⟨0, 100, "entity.name"⟩]
  selection := [.point (entryPlace forkedHierarchy "top" forkedBefore forkedRow : Nat)]

def forkedWorkspace : Editor.Workspace where
  buffers := [forkedView]
  hierarchy := { name := "top", files := [("outer", "outer.vhd")] }

/-- In the text of the forked hierarchy, the second of two equal instances leads to its own type. -/
theorem parent_read_back_forked :
    treeText? forkedHierarchy "top" = some forkedView.contents ∧
    rowsBelow forkedHierarchy maxLevel 1 "top" = forkedBefore ++ [forkedRow] ∧
    ∃ n, Editor.Act.outcome (gotoDefinition 0) forkedWorkspace =
      Editor.Act.outcome (follow { unit := "outer", label := "core", file := some "outer.vhd" })
        { forkedWorkspace with questions := n } := by
  have split : rowsBelow forkedHierarchy maxLevel 1 "top" = forkedBefore ++ [forkedRow] := by rfl
  obtain ⟨printed, back⟩ := parent_read_back forkedHierarchy "top" (by decide) forked_named forked_shallow
  have contents : forkedView.contents =
      treeOf forkedHierarchy "top" (rowsBelow forkedHierarchy maxLevel 1 "top") := by
    rw [split]
    exact ofList_toList
  obtain ⟨-, found⟩ := back forkedBefore forkedRow [] split
  obtain ⟨-, -, followed⟩ := found forkedView forkedWorkspace.hierarchy
    (entryPlace forkedHierarchy "top" forkedBefore forkedRow) contents rfl (Nat.le_refl _)
    (Nat.le_add_right _ _)
  have on : OnInstance forkedWorkspace 0 forkedView (entryPlace forkedHierarchy "top" forkedBefore forkedRow) :=
    ⟨rfl, rfl, by decide +kernel, by decide +kernel, by decide⟩
  obtain ⟨n, outcome⟩ := followed forkedWorkspace 0 on rfl
  exact ⟨by rw [printed, contents], split, 0 + n, outcome⟩

end VhdlWorkbench.Hierarchy

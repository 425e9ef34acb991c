import VhdlWorkbench.Hierarchy.Tree
import VhdlWorkbench.Proofs.Outcomes

/-!
The lines of a hierarchy with the types that they are listed under.
-/

namespace VhdlWorkbench.Hierarchy

open List String

open Design (Instance)

/-- A line of a hierarchy: an instance at a level, and the type in whose list the instance stands. -/
structure Row where
  level : Nat
  parent : String
  entry : Instance

def Row.isOpen (e : Explored) (row : Row) : Bool :=
  (e.instances.lookup row.entry.unit).isSome

def Row.body (e : Explored) (row : Row) : String :=
  if row.isOpen e then "+ " ++ entryText row.entry
  else "- " ++ entryText row.entry ++ e.remark row.entry.unit

def Row.text (e : Explored) (row : Row) : String :=
  Text.times row.level "  " ++ row.body e ++ "\n"

/-- The lines below a type from a level on, for which `left` levels are left. -/
def rowsBelow (e : Explored) : Nat → Nat → String → List Row
  | 0, _, _ => []
  | left + 1, level, type =>
    ((e.instances.lookup type).getD []).flatMap fun i =>
      ⟨level, type, i⟩ :: rowsBelow e left (level + 1) i.unit

/-- A type with instances is so many steps below another one. -/
inductive Below (e : Explored) : String → Nat → String → Prop where
  | itself {type : String} (known : (e.instances.lookup type).isSome = true) : Below e type 0 type
  | under {type other : String} {n : Nat} {i : Instance}
      (member : i ∈ (e.instances.lookup type).getD []) (deeper : Below e i.unit n other) :
      Below e type (n + 1) other

variable {e : Explored} {left level : Nat} {type : String}

theorem rowsBelow_closed (closed : e.instances.lookup type = none) :
    rowsBelow e left level type = [] := by
  cases left with
  | zero => rfl
  | succ left => rw [rowsBelow, closed, Option.getD_none, flatMap_nil]

theorem join_blocks (blocks : Instance → List Row) (instances : List Instance) :
    join (instances.map fun i => join ((blocks i).map (Row.text e))) =
      join ((instances.flatMap blocks).map (Row.text e)) := by
  induction instances with
  | nil => rfl
  | cons i instances ih =>
    rw [map_cons, join_cons, ih, flatMap_cons, map_append, join_append]

theorem instanceLines?_eq {i : Instance} {below : String → Option String} {rows : List Row}
    (opened : (e.instances.lookup i.unit).isSome = true →
      below i.unit = some (String.join (rows.map (Row.text e))))
    (closed : e.instances.lookup i.unit = none → rows = []) :
    instanceLines? e level below i =
      some (String.join ((⟨level, type, i⟩ :: rows : List Row).map (Row.text e))) := by
  rw [map_cons, String.join_cons, Row.text, Row.body, Row.isOpen, instanceLines?]
  cases found : e.instances.lookup i.unit with
  | none =>
    rw [closed found]
    simp [String.append_assoc]
  | some instances =>
    rw [opened (by rw [found]; rfl)]
    simp [String.append_assoc]

theorem linesBelow?_step (opened : ∀ i ∈ (e.instances.lookup type).getD [],
      (e.instances.lookup i.unit).isSome = true → linesBelow? e left (level + 1) i.unit =
        some (join ((rowsBelow e left (level + 1) i.unit).map (Row.text e)))) :
    linesBelow? e (left + 1) level type =
      some (join ((rowsBelow e (left + 1) level type).map (Row.text e))) := by
  have each : ∀ i ∈ (e.instances.lookup type).getD [],
      instanceLines? e level (linesBelow? e left (level + 1)) i =
        pure (join ((⟨level, type, i⟩ :: rowsBelow e left (level + 1) i.unit : List Row).map
          (Row.text e))) :=
    fun i member => instanceLines?_eq (opened i member) rowsBelow_closed
  rw [linesBelow?, mapM_congr each, mapM_pure, rowsBelow, ← join_blocks]
  rfl

/-- The lines below a type are printed if they are not too deep. -/
theorem linesBelow?_eq (shallow : ∀ n other, Below e type n other → n ≤ left) :
    linesBelow? e (left + 1) level type =
      some (join ((rowsBelow e (left + 1) level type).map (Row.text e))) := by
  induction left generalizing level type with
  | zero =>
    apply linesBelow?_step
    intro i member opens
    have := shallow 1 i.unit (.under member (.itself opens))
    omega
  | succ left ih =>
    apply linesBelow?_step
    intro i member _
    apply ih
    intro n other below
    have := shallow (n + 1) other (.under member below)
    omega

theorem le_level_of_mem {row : Row} (member : row ∈ rowsBelow e left level type) : level ≤ row.level := by
  induction left generalizing level type with
  | zero => exact absurd member not_mem_nil
  | succ left ih =>
    rw [rowsBelow, mem_flatMap] at member
    obtain ⟨i, -, inside⟩ := member
    rcases mem_cons.mp inside with rfl | below
    · exact Nat.le_refl _
    · have := ih below
      omega

theorem entry_mem_of_mem {row : Row} (member : row ∈ rowsBelow e left level type) :
    row.entry ∈ (e.instances.lookup row.parent).getD [] := by
  induction left generalizing level type with
  | zero => exact absurd member not_mem_nil
  | succ left ih =>
    rw [rowsBelow, mem_flatMap] at member
    obtain ⟨i, listed, inside⟩ := member
    rcases mem_cons.mp inside with rfl | below
    · exact listed
    · exact ih below

theorem split_flatMap {α β : Type} {f : α → List β} {xs : List α} {before after : List β} {y : β}
    (split : xs.flatMap f = before ++ y :: after) :
    ∃ earlier x start rest, x ∈ xs ∧ f x = start ++ y :: rest ∧ before = earlier ++ start := by
  induction xs generalizing before with
  | nil => simp at split
  | cons x xs ih =>
    rw [flatMap_cons, append_eq_append_iff] at split
    rcases split with ⟨start, rfl, later⟩ | ⟨rest, first, split⟩
    · obtain ⟨earlier, x', start', rest, member, found, rfl⟩ := ih later
      exact ⟨f x ++ earlier, x', start', rest, mem_cons_of_mem x member, found,
        (append_assoc _ _ _).symm⟩
    · cases rest with
      | nil =>
        rw [append_nil] at first
        obtain ⟨earlier, x', start', rest, member, found, empty⟩ :=
          ih (show xs.flatMap f = [] ++ y :: after from split.symm)
        obtain ⟨rfl, rfl⟩ := append_eq_nil_iff.mp empty.symm
        exact ⟨before, x', [], rest, mem_cons_of_mem x member, found, (append_nil before).symm⟩
      | cons z rest =>
        obtain ⟨rfl, -⟩ := cons.inj split
        exact ⟨[], x, before, rest, mem_cons_self, first, rfl⟩

/-- A line is listed under the type itself, or under the type of an open line one level higher, behind which
no line so high comes before it. -/
theorem parent_of_split {before after : List Row} {row : Row}
    (split : rowsBelow e left level type = before ++ row :: after) :
    row.level = level ∧ row.parent = type ∨
      ∃ earlier opener between, before = earlier ++ opener :: between ∧ opener.level + 1 = row.level ∧
        opener.isOpen e = true ∧ opener.entry.unit = row.parent ∧
        ∀ other ∈ between, row.level ≤ other.level := by
  induction left generalizing level type before after with
  | zero => simp [rowsBelow] at split
  | succ left ih =>
    rw [rowsBelow] at split
    obtain ⟨earlier, i, start, rest, listed, found, rfl⟩ := split_flatMap split
    rcases cons_eq_append_iff.mp found with ⟨rfl, first⟩ | ⟨start, rfl, below⟩
    · obtain ⟨rfl, -⟩ := cons.inj first
      exact Or.inl ⟨rfl, rfl⟩
    right
    rcases ih below with ⟨high, parent⟩ | ⟨earlier', opener, between, rfl, height, opens, unit, lower⟩
    · -- the instance itself is the line above
      refine ⟨earlier, ⟨level, type, i⟩, start, rfl, high.symm, ?_, parent.symm, ?_⟩
      · cases closed : e.instances.lookup i.unit with
        | none => simp [rowsBelow_closed closed] at below
        | some instances => simp [Row.isOpen, closed]
      · intro other member
        rw [high]
        apply le_level_of_mem
        rw [below]
        exact mem_append_left _ member
    · refine ⟨earlier ++ ⟨level, type, i⟩ :: earlier', opener, between, ?_, height, opens, unit, lower⟩
      simp

end VhdlWorkbench.Hierarchy

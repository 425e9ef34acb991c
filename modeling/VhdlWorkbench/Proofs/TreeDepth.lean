import VhdlWorkbench.Proofs.TreeRows

/-!
How deep a hierarchy may be for its text to be made.
-/

namespace VhdlWorkbench.Hierarchy

open List Option

open Design (Instance)

variable {e : Explored} {left level n : Nat} {type other text : String}

theorem exists_of_mapM_some {α β : Type} {f : α → Option β} {xs : List α} {ys : List β}
    (done : xs.mapM f = some ys) {x : α} (member : x ∈ xs) : ∃ y, f x = some y := by
  induction xs generalizing ys with
  | nil => exact absurd member not_mem_nil
  | cons x' xs ih =>
    rw [mapM_cons, bind_eq_bind, bind_eq_some_iff] at done
    obtain ⟨y, first, done⟩ := done
    rw [bind_eq_bind, bind_eq_some_iff] at done
    obtain ⟨ys', others, -⟩ := done
    rcases mem_cons.mp member with rfl | later
    · exact ⟨y, first⟩
    · exact ih others later

theorem below_of_instanceLines? {i : Instance} {below : String → Option String}
    (opened : (e.instances.lookup i.unit).isSome = true) (printed : instanceLines? e level below i = some text) :
    ∃ lines, below i.unit = some lines := by
  rw [instanceLines?, if_pos opened, map_eq_some_iff] at printed
  obtain ⟨lines, found, -⟩ := printed
  exact ⟨lines, found⟩

theorem known_of_below (below : Below e type n other) : (e.instances.lookup type).isSome = true := by
  cases below with
  | itself known => exact known
  | under member deeper =>
    cases found : e.instances.lookup type with
    | none => simp [found] at member
    | some instances => rfl

/-- What is printed is not too deep: each step down takes one of the levels that are left. -/
theorem lt_of_linesBelow? (printed : linesBelow? e left level type = some text)
    (below : Below e type n other) : n < left := by
  induction below generalizing left level text with
  | itself known =>
    cases left with
    | zero => simp [linesBelow?] at printed
    | succ left => exact Nat.succ_pos left
  | @under type other n i member deeper ih =>
    cases left with
    | zero => simp [linesBelow?] at printed
    | succ left =>
      rw [linesBelow?, map_eq_some_iff] at printed
      obtain ⟨blocks, each, -⟩ := printed
      obtain ⟨block, here⟩ := exists_of_mapM_some each member
      obtain ⟨lines, inner⟩ := below_of_instanceLines? (known_of_below deeper) here
      exact Nat.succ_lt_succ (ih inner)

/-- The lines below a type are printed, all of them, exactly if every type with instances is fewer steps below
it than the text has levels; there is no text at all for a hierarchy that is deeper. -/
theorem tree_printed_iff_shallow (e : Explored) (type : String) :
    (linesBelow? e maxLevel 1 type =
        some (String.join ((rowsBelow e maxLevel 1 type).map (Row.text e))) ↔
      ∀ n other, Below e type n other → n < maxLevel) ∧
    (linesBelow? e maxLevel 1 type = none ↔ ∃ n other, maxLevel ≤ n ∧ Below e type n other) := by
  have complete : (∀ n other, Below e type n other → n < maxLevel) → linesBelow? e maxLevel 1 type =
      some (String.join ((rowsBelow e maxLevel 1 type).map (Row.text e))) :=
    fun shallow => linesBelow?_eq fun n other below => Nat.le_of_lt_succ (shallow n other below)
  refine ⟨⟨fun printed n other below => lt_of_linesBelow? printed below, complete⟩, ?_, ?_⟩
  · intro missing
    by_contra shallow
    have printed := complete fun n other below => by
      by_contra deep
      exact shallow ⟨n, other, Nat.le_of_not_lt deep, below⟩
    simp [missing] at printed
  · rintro ⟨n, other, deep, below⟩
    cases printed : linesBelow? e maxLevel 1 type with
    | none => rfl
    | some text => exact absurd (lt_of_linesBelow? printed below) (Nat.not_lt.mpr deep)

/-- A type that has an instance of itself has no text. -/
theorem own_instance_not_printed :
    linesBelow? { instances := [("m", [⟨"u", "m"⟩])] } maxLevel 1 "m" = none := by
  decide

end VhdlWorkbench.Hierarchy

import Mathlib.Data.Finset.Card
import VhdlWorkbench.Hierarchy.Walk
import VhdlWorkbench.Proofs.Actions
import VhdlWorkbench.Proofs.Tables

/-!
Exploring a hierarchy with an action that resolves types: the rounds end, and find the reachable types.
-/

namespace VhdlWorkbench.Hierarchy

open List

open Design (Instance)

variable {known : List String} {w : Workspace}
open Editor

/-- The types that some instances lead to, by the instances that types have. -/
inductive Reachable (has : String → Instance → Prop) (given : List Instance) : String → Prop
  | given {i : Instance} (member : i ∈ given) : Reachable has given i.unit
  | under {type : String} {i : Instance} (above : Reachable has given type) (member : has type i) :
      Reachable has given i.unit

section Records

variable {res : String → Resolution} {unit : String} {given : List Instance} {seen : String → Prop}
  {e : Explored}

/-- What has been found out is exactly what is known about the types seen so far. The unit at the top has
its own instances from the start. -/
structure Records (res : String → Resolution) (unit : String) (given : List Instance)
    (seen : String → Prop) (e : Explored) : Prop where
  files : ∀ type file,
    e.files.lookup type = some file ↔ seen type ∧ ∃ instances, res type = .architecture file instances
  components : ∀ type, type ∈ e.components ↔ seen type ∧ res type = .component
  unresolved : ∀ type, type ∈ e.unresolved ↔ seen type ∧ res type = .unresolved
  instances : ∀ type instances,
    e.instances.lookup type = some instances ↔
      seen type ∧ instances ≠ [] ∧ (res type).instances = instances ∨
        type = unit ∧ instances = given ∧ ¬(seen type ∧ (res type).instances ≠ [])

theorem Records.congr {seen' : String → Prop} (records : Records res unit given seen e)
    (same : ∀ type, seen type ↔ seen' type) : Records res unit given seen' e := by
  obtain rfl : seen = seen' := funext fun type => propext (same type)
  exact records

theorem Records.empty : Records res unit given (fun _ => False) { instances := [(unit, given)] } where
  files := by simp
  components := by simp
  unresolved := by simp
  instances type instances := by
    by_cases top : type = unit
    · subst top
      simpa using eq_comm
    · simp [top, lookup_cons, beq_eq_false_iff_ne.mpr top]

section

variable (records : Records res unit given seen e) (type : String)
include records type

theorem Records.add_instances (other : String) (instances : List Instance) :
    (e.add type (res type)).instances.lookup other = some instances ↔
      (seen other ∨ other = type) ∧ instances ≠ [] ∧ (res other).instances = instances ∨
        other = unit ∧ instances = given ∧
          ¬((seen other ∨ other = type) ∧ (res other).instances ≠ []) := by
  by_cases leaf : (res type).instances = []
  · have same : (e.add type (res type)).instances = e.instances := by
      cases found : res type with
      | unresolved => rfl
      | component => rfl
      | architecture file own =>
        rw [found] at leaf
        exact if_pos (isEmpty_iff.mpr leaf)
    rw [same, records.instances]
    by_cases new : other = type
    · subst new
      grind
    · simp [new]
  · have put : (e.add type (res type)).instances = Table.put e.instances type (res type).instances := by
      cases found : res type with
      | unresolved => simp [found, Resolution.instances] at leaf
      | component => simp [found, Resolution.instances] at leaf
      | architecture file own =>
        rw [found] at leaf
        exact if_neg (mt List.isEmpty_iff.mp leaf)
    rw [put, Table.lookup_put]
    by_cases new : other = type
    · subst new
      simp only [beq_self_eq_true, ↓reduceIte]
      grind
    · simp only [beq_eq_false_iff_ne.mpr new, Bool.false_eq_true, ↓reduceIte, records.instances, new, or_false]

theorem Records.add :
    Records res unit given (fun other => seen other ∨ other = type) (e.add type (res type)) where
  files other file := by
    have old := records.files other file
    by_cases new : other = type
    · subst new
      cases found : res other with
      | unresolved => simp_all [Explored.add]
      | component => simp_all [Explored.add]
      | architecture own instances => simp [Explored.add, Table.lookup_put]
    · cases found : res type with
      | unresolved => simpa [Explored.add, new] using old
      | component => simpa [Explored.add, new] using old
      | architecture own instances =>
        simpa [Explored.add, Table.lookup_put, new, beq_eq_false_iff_ne.mpr new] using old
  components other := by
    have old := records.components other
    cases found : res type with
    | unresolved => simp only [Explored.add, old]; grind
    | component => simp only [Explored.add, mem_append, mem_singleton, old]; grind
    | architecture own instances => simp only [Explored.add, old]; grind
  unresolved other := by
    have old := records.unresolved other
    cases found : res type with
    | unresolved => simp only [Explored.add, mem_append, mem_singleton, old]; grind
    | component => simp only [Explored.add, old]; grind
    | architecture own instances => simp only [Explored.add, old]; grind
  instances := records.add_instances type

theorem Records.isSettled_iff : e.isSettled type = true ↔ seen type ∧ res type ≠ .unresolved := by
  have files := records.files type
  have components := records.components type
  rw [Explored.isSettled, Bool.or_eq_true, Option.isSome_iff_exists, contains_iff_mem]
  simp only [files, components]
  cases res type <;> simp

end

end Records

/-- A type has an instance, by what is known about it. -/
abbrev Has (res : String → Resolution) (type : String) (i : Instance) : Prop :=
  i ∈ (res type).instances

section Frontier

variable {res : String → Resolution} {given : List Instance} {seen : String → Prop} {l next : List Instance}

/-- What is left to explore: the types that are seen or pending are reachable, and the instances that lead
on from them are seen or pending. -/
structure Frontier (res : String → Resolution) (given : List Instance) (seen : String → Prop)
    (l : List Instance) : Prop where
  reached : ∀ type, seen type → Reachable (Has res) given type
  pending : ∀ i ∈ l, Reachable (Has res) given i.unit
  roots : ∀ i ∈ given, seen i.unit ∨ i ∈ l
  closed : ∀ type, seen type → ∀ i ∈ (res type).instances, seen i.unit ∨ i ∈ l

/-- What a round leaves to the next: the instances of the types that it sees for the first time. -/
structure Round (res : String → Resolution) (seen : String → Prop) (l next : List Instance) : Prop where
  fresh : ∀ i ∈ next, ∃ j ∈ l, ¬seen j.unit ∧ i ∈ (res j.unit).instances
  followed : ∀ j ∈ l, seen j.unit ∨ ∀ i ∈ (res j.unit).instances, i ∈ next

theorem Frontier.start : Frontier res given (fun _ => False) given where
  reached _ none := none.elim
  pending _ member := .given member
  roots _ member := Or.inr member
  closed _ none := none.elim

theorem Frontier.of_mem_iff (frontier : Frontier res given seen l) (same : ∀ i, i ∈ next ↔ i ∈ l) :
    Frontier res given seen next where
  reached := frontier.reached
  pending i member := frontier.pending i ((same i).mp member)
  roots i member := (frontier.roots i member).imp id (same i).mpr
  closed type found i member := (frontier.closed type found i member).imp id (same i).mpr

theorem Frontier.seen_iff (frontier : Frontier res given seen []) (type : String) :
    seen type ↔ Reachable (Has res) given type := by
  refine ⟨frontier.reached type, fun reachable => ?_⟩
  induction reachable with
  | given member => exact (frontier.roots _ member).resolve_right not_mem_nil
  | under above member ih => exact (frontier.closed _ ih _ member).resolve_right not_mem_nil

theorem Frontier.advance (frontier : Frontier res given seen l) (round : Round res seen l next) :
    Frontier res given (fun type => seen type ∨ ∃ i ∈ l, i.unit = type) next where
  reached type := by
    rintro (old | ⟨i, member, rfl⟩)
    · exact frontier.reached type old
    · exact frontier.pending i member
  pending i member := by
    obtain ⟨j, inside, -, its⟩ := round.fresh i member
    exact .under (frontier.pending j inside) its
  roots i member := by
    rcases frontier.roots i member with old | inside
    · exact Or.inl (Or.inl old)
    · exact Or.inl (Or.inr ⟨i, inside, rfl⟩)
  closed type found i member := by
    have old (known : seen type) : (seen i.unit ∨ ∃ j ∈ l, j.unit = i.unit) ∨ i ∈ next := by
      rcases frontier.closed type known i member with old | inside
      · exact Or.inl (Or.inl old)
      · exact Or.inl (Or.inr ⟨i, inside, rfl⟩)
    rcases found with known | ⟨j, inside, rfl⟩
    · exact old known
    · rcases round.followed j inside with known | led
      · exact old known
      · exact Or.inr (led i member)

open Classical in
/-- How many of the known types have not been seen. -/
noncomputable def remaining (known : List String) (seen : String → Prop) : Nat :=
  (known.toFinset.filter (¬seen ·)).card

theorem remaining_le (known : List String) (seen : String → Prop) : remaining known seen ≤ known.length := by
  classical
  exact (Finset.card_filter_le _ _).trans known.toFinset_card_le

theorem remaining_lt {seen' : String → Prop} {type : String}
    (member : type ∈ known) (unseen : ¬seen type) (new : seen' type) (kept : ∀ other, seen other → seen' other) :
    remaining known seen' < remaining known seen := by
  classical
  refine Finset.card_lt_card (Finset.ssubset_iff_of_subset ?_ |>.mpr ⟨type, ?_, ?_⟩)
  · intro other inside
    obtain ⟨there, missing⟩ := Finset.mem_filter.mp inside
    exact Finset.mem_filter.mpr ⟨there, fun old => missing (kept other old)⟩
  · exact Finset.mem_filter.mpr ⟨mem_toFinset.mpr member, unseen⟩
  · exact fun inside => (Finset.mem_filter.mp inside).2 new

theorem Round.remaining_lt (round : Round res seen l next)
    (listed : ∀ type, res type ≠ .unresolved → type ∈ known) (more : next ≠ []) :
    remaining known (fun type => seen type ∨ ∃ i ∈ l, i.unit = type) < remaining known seen := by
  obtain ⟨i, member⟩ := exists_mem_of_ne_nil next more
  obtain ⟨j, inside, unseen, its⟩ := round.fresh i member
  refine Hierarchy.remaining_lt (listed j.unit fun none => ?_) unseen (Or.inr ⟨j, inside, rfl⟩)
    fun _ old => Or.inl old
  rw [none] at its
  exact not_mem_nil its

end Frontier

section Run

variable {res : String → Resolution} {unit : String} {given : List Instance} {seen : String → Prop}
  {find : String → Act Resolution} {admits : String → Prop} {fits : Explored → Workspace → Prop}

/-- An action answers as a function does, for the types that are admitted, as long as the workspace fits
what has been found out. -/
structure Answers (find : String → Act Resolution) (res : String → Resolution) (admits : String → Prop)
    (fits : Explored → Workspace → Prop) : Prop where
  step : ∀ {e w type}, fits e w → admits type →
    ∃ w', Act.Yields (find type) w (res type) w' ∧ fits (e.add type (res type)) w'
  closed : ∀ {type}, admits type → ∀ i ∈ (res type).instances, admits i.unit

/-- Rounds of an exploration until nothing is pending. -/
inductive Walks (find : String → Act Resolution) :
    List Instance → Explored → Workspace → Explored → Workspace → Prop
  | ended (e : Explored) (w : Workspace) : Walks find [] e w e w
  | round {l next : List Instance} {e e₁ e' : Explored} {w w₁ w' : Workspace} (pending : l ≠ [])
      (run : Act.Yields (exploreAll find l.eraseDups e) w (next, e₁) w₁)
      (later : Walks find next e₁ w₁ e' w') : Walks find l e w e' w'

theorem exploreAll_yields (answers : Answers find res admits fits) {l : List Instance}
    (all : ∀ i ∈ l, admits i.unit) {e : Explored} (fit : fits e w) (records : Records res unit given seen e) :
    ∃ next e' w', Act.Yields (exploreAll find l e) w (next, e') w' ∧ fits e' w' ∧
      Records res unit given (fun type => seen type ∨ ∃ i ∈ l, i.unit = type) e' ∧ Round res seen l next := by
  induction l generalizing seen e w with
  | nil =>
    refine ⟨[], e, w, Act.yields_pure.mpr ⟨rfl, rfl⟩, fit, records.congr (by simp), by simp, by simp⟩
  | cons i rest ih =>
    have tail : ∀ j ∈ rest, admits j.unit := fun j member => all j (mem_cons_of_mem i member)
    by_cases settled : e.isSettled i.unit = true
    · have known := ((records.isSettled_iff i.unit).mp settled).1
      obtain ⟨next, e', w', run, fit', records', round⟩ := ih tail fit records
      refine ⟨next, e', w', ?_, fit', records'.congr ?_, ?_, ?_⟩
      · rw [exploreAll, if_pos settled]
        exact run
      · intro type
        simp only [mem_cons, or_and_right, exists_or, exists_eq_left]
        constructor
        · exact Or.imp id Or.inr
        · rintro (old | rfl | later)
          · exact Or.inl old
          · exact Or.inl known
          · exact Or.inr later
      · intro j member
        obtain ⟨k, inside, unseen, its⟩ := round.fresh j member
        exact ⟨k, mem_cons_of_mem i inside, unseen, its⟩
      · intro j member
        rcases mem_cons.mp member with rfl | inside
        · exact Or.inl known
        · exact round.followed j inside
    · obtain ⟨w₁, answer, fit₁⟩ := answers.step fit (all i mem_cons_self)
      obtain ⟨next, e', w', run, fit', records', round⟩ := ih tail fit₁ (records.add i.unit)
      refine ⟨(res i.unit).instances ++ next, e', w', ?_, fit', records'.congr ?_, ?_, ?_⟩
      · rw [exploreAll, if_neg settled]
        refine Act.yields_bind.mpr ⟨_, w₁, answer, Act.yields_bind.mpr ⟨_, w', run, ?_⟩⟩
        exact Act.yields_pure.mpr ⟨rfl, rfl⟩
      · intro type
        simp only [mem_cons, or_and_right, exists_or, exists_eq_left, or_assoc, eq_comm (a := type)]
      · intro j member
        rcases mem_append.mp member with own | later
        · refine ⟨i, mem_cons_self, fun old => settled ?_, own⟩
          refine (records.isSettled_iff i.unit).mpr ⟨old, fun none => ?_⟩
          rw [none] at own
          exact not_mem_nil own
        · obtain ⟨k, inside, unseen, its⟩ := round.fresh j later
          exact ⟨k, mem_cons_of_mem i inside, fun old => unseen (Or.inl old), its⟩
      · intro j member
        rcases mem_cons.mp member with rfl | inside
        · exact Or.inr fun k its => mem_append_left next its
        · rcases round.followed j inside with (old | same) | led
          · exact Or.inl old
          · exact Or.inr fun k its => mem_append_left next (same ▸ its)
          · exact Or.inr fun k its => mem_append_right _ (led k its)

theorem exploreFrom_ended {e : Explored} (fit : fits e w)
    (records : Records res unit given seen e) (frontier : Frontier res given seen []) (fuel : Nat) :
    ∃ e' w', Walks find [] e w e' w' ∧
      (∀ more, fuel ≤ more → Act.Yields (exploreFrom find more [] e) w e' w') ∧ fits e' w' ∧
      Records res unit given (Reachable (Has res) given) e' := by
  refine ⟨e, w, .ended e w, fun more _ => ?_, fit, records.congr frontier.seen_iff⟩
  cases more with
  | zero => exact Act.yields_pure.mpr ⟨rfl, rfl⟩
  | succ more => exact Act.yields_pure.mpr ⟨rfl, rfl⟩

section

variable (answers : Answers find res admits fits) (listed : ∀ type, res type ≠ .unresolved → type ∈ known)
include answers listed

/-- By induction on the rounds that are left. A round that is not the last sees a known type for the first
time, so the known types that have not been seen bound the rounds. -/
theorem exploreFrom_yields {fuel : Nat} {l : List Instance} (all : ∀ i ∈ l, admits i.unit) {e : Explored}
    (fit : fits e w) (records : Records res unit given seen e) (frontier : Frontier res given seen l)
    (enough : l ≠ [] → remaining known seen < fuel) : ∃ e' w', Walks find l e w e' w' ∧
      (∀ more, fuel ≤ more → Act.Yields (exploreFrom find more l e) w e' w') ∧ fits e' w' ∧
      Records res unit given (Reachable (Has res) given) e' := by
  induction fuel generalizing seen l e w with
  | zero =>
    obtain rfl : l = [] := by
      by_contra more
      exact Nat.not_lt_zero _ (enough more)
    exact exploreFrom_ended fit records frontier 0
  | succ fuel ih =>
    cases l with
    | nil => exact exploreFrom_ended fit records frontier (fuel + 1)
    | cons i rest =>
      have same (j : Instance) : j ∈ (i :: rest).eraseDups ↔ j ∈ i :: rest := mem_eraseDups
      obtain ⟨next, e₁, w₁, run, fit₁, records₁, round⟩ :=
        exploreAll_yields answers (fun j member => all j ((same j).mp member)) fit records
      have frontier₁ := (frontier.of_mem_iff same).advance round
      have all₁ : ∀ j ∈ next, admits j.unit := by
        intro j member
        obtain ⟨k, inside, -, its⟩ := round.fresh j member
        exact answers.closed (all k ((same k).mp inside)) j its
      have enough₁ (more : next ≠ []) := Nat.lt_of_lt_of_le (round.remaining_lt listed more)
        (Nat.le_of_lt_succ (enough (by simp)))
      obtain ⟨e', w', walks, runs, fit', records'⟩ := ih all₁ fit₁ records₁ frontier₁ enough₁
      refine ⟨e', w', .round (by simp) run walks, ?_, fit', records'⟩
      rintro (- | more) room
      · exact absurd room (Nat.not_succ_le_zero fuel)
      · exact Act.yields_bind.mpr ⟨_, w₁, run, runs more (Nat.le_of_succ_le_succ room)⟩

/-- If an action answers as a function does, the rounds come to an end, and what has been found out then is
what the function says about the reachable types. As many rounds as there are known types, and two more, are
enough. -/
theorem explore_yields (all : ∀ i ∈ given, admits i.unit) (fit : fits { instances := [(unit, given)] } w) :
    ∃ e w', Walks find given { instances := [(unit, given)] } w e w' ∧
      (∀ bound, known.length ≤ bound → Act.Yields (explore find bound unit given) w e w') ∧
      fits e w' ∧ Records res unit given (Reachable (Has res) given) e := by
  have enough : remaining known (fun _ => False) < known.length + 2 :=
    Nat.lt_of_le_of_lt (remaining_le known _) (by omega)
  obtain ⟨e, w', walks, runs, fit', records⟩ :=
    exploreFrom_yields answers listed all fit Records.empty Frontier.start fun _ => enough
  exact ⟨e, w', walks, fun bound room => runs (bound + 2) (by omega), fit', records⟩

end

end Run

end VhdlWorkbench.Hierarchy

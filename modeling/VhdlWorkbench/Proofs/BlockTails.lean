import VhdlWorkbench.Layout.Instance
import VhdlWorkbench.Layout.Record
import VhdlWorkbench.Proofs.Extension
import VhdlWorkbench.Proofs.TrimmedLines

/-!
What stands behind an aligned block on its last line is kept exactly if it is blank.
-/

namespace VhdlWorkbench.Layout

open Pattern Text List

/-- The blocks that are written anew from one match. -/
inductive Block where
  | entity
  | instantiation
  | record
deriving DecidableEq, Repr

namespace Block

def pattern : Block → Regex
  | .entity => entityBlock
  | .instantiation => instanceBlock
  | .record => recordBlock

/-- The block that is aligned: the first one of a text, an instance only at its start. -/
def find? : Block → String → Option Match
  | .instantiation, text => instanceBlock.matchStart? text
  | kind, text => kind.pattern.search? text

def align (indent : Indentation) (level : Int) : Block → String → Except Fault (Option String)
  | .entity, text => (alignEntity indent text level).map some
  | .instantiation, text => alignInstance text level
  | .record, text => (alignRecord indent text level).map some

theorem endsIn_pattern (kind : Block) : kind.pattern.EndsIn ';' := by
  have folds : Folds kind.pattern.options := by
    cases kind <;> exact { full := rfl, fold := rfl }
  cases kind <;> exact ⟨by decide, fun _ => (charAccepts_mark (by decide)).mp, rfl, rfl⟩

variable {tail : String}

/-- The groups of the block do not depend on a tail without a semicolon. -/
theorem find?_append {kind : Block} {block : String} {m : Match} (absent : ';' ∉ tail.toList)
    (found : kind.find? block = some m) :
    ∃ m', kind.find? (block ++ tail) = some m' ∧ ∀ name, m'.named name = m.named name := by
  cases kind with
  | entity => exact Regex.search?_longer (endsIn_pattern .entity) absent found
  | instantiation => exact Regex.matchStart?_longer (endsIn_pattern .instantiation) absent found
  | record => exact Regex.search?_longer (endsIn_pattern .record) absent found

/-- The aligned text is made of the groups of the block. -/
theorem align_congr {kind : Block} {indent : Indentation} {level : Int} {text text' : String} {m m' : Match}
    (found : kind.find? text = some m) (found' : kind.find? text' = some m')
    (named : ∀ name, m'.named name = m.named name) :
    kind.align indent level text' = kind.align indent level text := by
  cases kind with
  | entity =>
    replace found : entityBlock.search? text = some m := found
    replace found' : entityBlock.search? text' = some m' := found'
    simp only [align, alignEntity, found, found', named]
  | instantiation =>
    replace found : instanceBlock.matchStart? text = some m := found
    replace found' : instanceBlock.matchStart? text' = some m' := found'
    simp only [align, alignInstance, found, found', named]
  | record =>
    replace found : recordBlock.search? text = some m := found
    replace found' : recordBlock.search? text' = some m' := found'
    simp only [align, alignRecord, found, found', named]

end Block

/-- A result holds the characters of another one and behind them those of a tail, blanks aside. -/
def TailKept (tail old new : String) : Prop :=
  (solids old.toList ++ solids tail.toList).Sublist (solids new.toList)

theorem tailKept_self_iff {tail old : String} :
    TailKept tail old old ↔ ∀ c ∈ tail.toList, isBlank c = true := by
  constructor
  · intro kept c member
    have room := kept.length_le
    have none : solids tail.toList = [] := length_eq_zero_iff.mp (by rw [length_append] at room; omega)
    by_contra solid
    have there : c ∈ solids tail.toList := mem_solids.mpr ⟨member, by simpa using solid⟩
    rw [none] at there
    exact not_mem_nil there
  · intro blank
    rw [TailKept, solids_of_blank blank, append_nil]

/-- A tail without a semicolon leaves the aligned block as it is, so that the tail is kept only if it is blank. -/
theorem block_tail_kept_iff_blank (kind : Block) (indent : Indentation) (level : Int) (block tail old : String)
    (absent : ';' ∉ tail.toList) (found : (kind.find? block).isSome = true)
    (aligned : kind.align indent level block = .ok (some old)) :
    ∃ new, kind.align indent level (block ++ tail) = .ok (some new) ∧
      (TailKept tail old new ↔ ∀ c ∈ tail.toList, isBlank c = true) := by
  obtain ⟨m, first⟩ := Option.isSome_iff_exists.mp found
  obtain ⟨m', second, named⟩ := Block.find?_append absent first
  exact ⟨old, (Block.align_congr first second named).trans aligned, tailKept_self_iff⟩

theorem block_tail_kept_iff_blank_instance :
    (Block.find? .instantiation "u1 : sub port map (\na => b\n);").isSome = true ∧
      ∃ new, Block.align {} 0 .instantiation ("u1 : sub port map (\na => b\n);" ++ " \t") = .ok (some new) ∧
        (TailKept " \t" "u1 : sub\n\tport map (\n\t\ta => b \n\t);" new ↔ ∀ c ∈ " \t".toList, isBlank c = true) := by
  have found : (Block.find? .instantiation "u1 : sub port map (\na => b\n);").isSome = true := by decide
  have aligned : Block.align {} 0 .instantiation "u1 : sub port map (\na => b\n);" =
      .ok (some "u1 : sub\n\tport map (\n\t\ta => b \n\t);") := by decide +kernel
  exact ⟨found, block_tail_kept_iff_blank .instantiation {} 0 _ " \t" _ (by decide) found aligned⟩

/-- A comment behind an instance is lost. -/
theorem comment_behind_instance_lost :
    alignInstance "u1 : sub port map (\na => b\n);" 0 = .ok (some "u1 : sub\n\tport map (\n\t\ta => b \n\t);") ∧
      alignInstance "u1 : sub port map (\na => b\n); -- end of u1" 0 =
        .ok (some "u1 : sub\n\tport map (\n\t\ta => b \n\t);") ∧
      ¬TailKept " -- end of u1" "u1 : sub\n\tport map (\n\t\ta => b \n\t);"
        "u1 : sub\n\tport map (\n\t\ta => b \n\t);" := by
  refine ⟨by decide +kernel, by decide +kernel, ?_⟩
  rw [tailKept_self_iff]
  decide

end VhdlWorkbench.Layout

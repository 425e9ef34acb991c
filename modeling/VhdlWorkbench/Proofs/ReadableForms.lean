import VhdlWorkbench.Proofs.Captures
import VhdlWorkbench.Proofs.NameList
import VhdlWorkbench.Proofs.Outcomes
import VhdlWorkbench.Proofs.Words

/-!
Forms whose matches can all be read, because they have a name and a type.
-/

namespace VhdlWorkbench.Declaration

open Pattern Pattern.Node Design List

variable {m : Match} {text : String}

theorem ofMatch_total {listed type : String} (named : m.named? "name" = some listed)
    (typed : (shared "" m).type = some type) : ∃ ds, ofMatch "" m = .ok ds := by
  simp only [ofMatch, named]
  split
  · exact ⟨_, rfl⟩
  · split
    · exact ⟨_, rfl⟩
    · obtain ⟨e, added⟩ := addIdentifiers_total typed
      exact ⟨_, bind_eq_ok.mpr ⟨e, added, rfl⟩⟩

theorem allOfForm_total {options : Options} {form : Node}
    (readable : ∀ m ∈ (Regex.ofNode options form).matches_ text, ∃ ds, ofMatch "" m = .ok ds) :
    ∃ ds, allOfForm options form text = .ok ds := by
  obtain ⟨found, read⟩ := mapM_total readable
  exact ⟨found.flatten, bind_eq_ok.mpr ⟨found, read, rfl⟩⟩

theorem typed_of_alias {seg : List Char} (tagged : m.named? "tag" = some (String.ofList seg))
    (reads : Reads "alias" seg) (plain : ∀ c ∈ seg, c ∉ foreignLetters) :
    ∃ type, (shared "" m).type = some type := by
  have spelled : Spells "alias" seg := reads.spells (by decide) (by decide) plain
  have nonempty : seg ≠ [] := (reads.identifier (by decide) (by decide)).nonempty
  have tag : tagOf m = "alias" := by
    simp only [tagOf, tagged, nonempty?_ofList nonempty]
    exact spelled.toLower_eq (by decide)
  cases found : nonempty? (m.named? "type") with
  | none => exact ⟨"alias", by simp [shared, tag, found]⟩
  | some type => exact ⟨type, by simp [shared, tag, found]⟩

section

variable (plain : ∀ c ∈ text.toList, c ∉ foreignLetters)
include plain

theorem aliasForm_total {form : Node} (tag : (Regex.ofNode lineOptions form).part? "tag" = some (lit "alias"))
    (name : (Regex.ofNode lineOptions form).part? "name" = some identifier) :
    ∃ ds, allOfForm lineOptions form text = .ok ds := by
  refine allOfForm_total fun m found => ?_
  obtain ⟨_, _, -, named⟩ := Regex.named_of_mem found name
  obtain ⟨u, u', passed, word⟩ := Regex.named_of_mem found tag
  obtain ⟨w, reads, here, rfl⟩ := reaches_word passed
  rw [segment_of_textFrom here] at word
  obtain ⟨type, typed⟩ : ∃ type, (shared "" m).type = some type := by
    refine typed_of_alias word reads fun c member => plain c ?_
    have inside : c ∈ textFrom text.toList.toArray u.pos := by
      rw [here]
      exact mem_append_left _ member
    exact mem_of_mem_drop inside
  exact ofMatch_total named typed

theorem aliases_total : ∃ ds, allOfForm lineOptions (aliasForm identifier) text = .ok ds :=
  aliasForm_total plain rfl rfl

theorem externalAliases_total :
    ∃ ds, allOfForm lineOptions (externalAliasForm identifier) text = .ok ds :=
  aliasForm_total plain rfl rfl

end

/-- The matches of a form with a name, and a type that is never empty, can be read. -/
theorem typedForm_total {options : Options} {form name : Node} {s : Single}
    (named : (Regex.ofNode options form).part? "name" = some name)
    (typed : (Regex.ofNode options form).part? "type" = some (many1 s)) (text : String) :
    ∃ ds, allOfForm options form text = .ok ds := by
  refine allOfForm_total fun m found => ?_
  obtain ⟨_, _, -, listed⟩ := Regex.named_of_mem found named
  obtain ⟨u, u', passed, type⟩ := Regex.named_of_mem found typed
  obtain ⟨seg, here, -, enough, -, rfl⟩ := reaches_run passed
  rw [segment_of_textFrom here] at type
  have letters : (shared "" m).type = some (String.ofList seg) := by
    simp [shared, type, nonempty?_ofList (length_pos_iff.mp enough)]
  exact ofMatch_total listed letters

theorem constants_total (text : String) : ∃ ds, allOfForm lineOptions (constantForm identifierList) text = .ok ds :=
  typedForm_total rfl rfl text

end VhdlWorkbench.Declaration

import VhdlWorkbench.Design.Instance
import VhdlWorkbench.Proofs.Captures
import VhdlWorkbench.Proofs.Outcomes
import VhdlWorkbench.Proofs.Words

/-!
The units that instances name are identifiers.
-/

namespace VhdlWorkbench.Design

open Pattern Pattern.Node Declaration List String

theorem isName_segment {text : Array Char} {t t' : Thread}
    (reached : Reaches text identifier blockOptions t t') :
    isName (ofList (segment text t.pos t'.pos)) = true := by
  obtain ⟨name, here, rfl⟩ := reaches_identifier reached
  rw [segment_of_textFrom here]
  exact name.isName

theorem isName_of_instances? {source unit : String} {instances : List Instance}
    (found : instances? source unit = .ok (some instances)) :
    ∀ i ∈ instances, isName i.unit = true := by
  obtain ⟨r, -, found⟩ := bind_eq_ok.mp found
  obtain ⟨m, -, rfl⟩ := Option.map_eq_some_iff.mp (Except.ok.inj found)
  intro i member
  obtain ⟨n, inside, rfl⟩ := mem_map.mp member
  rcases mem_append.mp inside with entity | component
  · obtain ⟨u, u', passed, unit⟩ :=
      Regex.group_of_mem 2 entity (show _ = some identifier from rfl) (by decide) (by decide)
    rw [unit]
    exact isName_segment passed
  · obtain ⟨u, u', passed, unit⟩ :=
      Regex.group_of_mem 2 component (show _ = some identifier from rfl) (by decide) (by decide)
    rw [unit]
    exact isName_segment passed

theorem instances?_total (source : String) {unit : String} (named : isName unit = true) :
    ∃ found, instances? source unit = .ok found := by
  obtain ⟨name, rfl⟩ := exists_identifier named
  have texts : (architectureBody (ofList name.chars)).pastedTexts = [ofList name.chars] := by
    rw [architectureBody, nameOrAny_identifier]
    rfl
  have built := build_of_wordy (o := blockOptions) texts (by simpa using name.wordy)
  exact ⟨_, bind_eq_ok.mpr ⟨_, by rw [built]; rfl, rfl⟩⟩

end VhdlWorkbench.Design

import VhdlWorkbench.Hierarchy.Instances
import VhdlWorkbench.Proofs.NameList
import VhdlWorkbench.Proofs.Outcomes
import VhdlWorkbench.Proofs.Words

/-!
The line numbers of listed instances: line feeds in the blanks before a label are not counted, but for the first blank.
-/

namespace VhdlWorkbench.Hierarchy

open String (ofList toList_ofList)
open Pattern Pattern.Node Design List Text

theorem lineNumber_of_label {front rest : List Char} (g : Gap) (label : Identifier) :
    lineNumber (front ++ (g.chars ++ (label.chars ++ rest))).toArray front.length =
      front.count '\n' + (g.chars.take 1).count '\n' + 1 := by
  have first : ((g.chars ++ (label.chars ++ rest)).take 1).count '\n' = (g.chars.take 1).count '\n' := by
    cases g.chars with
    | cons c cs => rfl
    | nil =>
      obtain ⟨c, cs, letters⟩ := exists_cons_of_ne_nil label.nonempty
      have other : c ≠ '\n' := fun feed => label.not_mem (c := '\n') (by decide) (by simp [letters, feed])
      simp [letters, other]
  simp only [lineNumber, extract_toArray, extract_eq_take_drop, Nat.sub_zero, drop_zero, take_length_add_append,
    toList_toArray, count_append, first]

variable {unit text : String} {r : Regex} {m : Match}

/-- A match begins with blanks and a label, and that is the label of its instance. -/
theorem label_of_mem (wordy : ∀ c ∈ unit.toList, isWord c = true) (form : instanceForm unit = .ok r)
    (found : m ∈ r.matches_ text) : ∃ (front : List Char) (g : Gap) (label : Identifier) (rest : List Char),
      text.toList = front ++ (g.chars ++ (label.chars ++ rest)) ∧
        Occurrence.ofMatch m = .ok ⟨ofList label.chars, lineNumber text.toList.toArray front.length⟩ := by
  rw [instanceForm, build_of_wordy rfl wordy] at form
  obtain rfl := Except.ok.inj form
  obtain ⟨place, _, matched⟩ := Regex.exists_matchAt_of_mem found
  obtain ⟨t, reached, rfl⟩ := Regex.matchAt_reaches matched
  obtain ⟨_, ⟨_, ⟨_, ⟨_, ⟨_, ⟨_, ⟨_, ⟨_, ⟨_, ⟨_, ⟨_, ⟨_, ⟨-, rfl⟩, blanks⟩, _, named, rfl⟩, r1⟩, r2⟩, r3⟩, r4⟩, r5⟩, r6⟩,
    r7⟩, r8⟩, r9⟩, r10⟩ := reached
  obtain ⟨g, atGap, -, rfl⟩ := reaches_gap blanks
  obtain ⟨label, atLabel, rfl⟩ := reaches_identifier named
  have span : t.spans[1]? = some (some (place + g.chars.length, place + g.chars.length + label.chars.length)) := by
    rw [r10.span_eq (by decide), r9.span_eq (by decide), r8.span_eq (by decide), r7.span_eq not_mem_nil,
      r6.span_eq (by decide), r5.span_eq (by decide), r4.span_eq (by decide), r3.span_eq (by decide),
      r2.span_eq (by decide), r1.span_eq (by decide)]
    rfl
  have inside : place ≤ text.toList.length := by simpa using Regex.pos_le_of_matchAt matched
  refine ⟨text.toList.take place, g, label, _, (take_append_drop place _).symm.trans
    (congrArg _ (atGap.trans (congrArg _ atLabel))), ?_⟩
  rw [length_take, Nat.min_eq_left inside]
  simp only [Occurrence.ofMatch, Match.group?, Match.span?, span, Nat.one_ne_zero, ↓reduceIte, Option.join_some,
    Option.map_some, segment_of_textFrom atLabel, label.trim_chars]

end VhdlWorkbench.Hierarchy

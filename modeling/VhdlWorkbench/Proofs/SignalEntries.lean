import VhdlWorkbench.Proofs.SignalLayout
import VhdlWorkbench.Proofs.SignalLines

/-!
The entries that one declaration of signals gives: those of its last name, once for each name.
-/

namespace VhdlWorkbench.Design

open String (ofList toList_ofList)
open Pattern Pattern.Node Declaration List String Text

variable {b : Char} {s : SignalLayout} {stop : Nat} {m : Match}

/-- A signal as it is reported: its name, and the names that the text of its declaration declares. -/
def signalReport (d : Declaration) : String × List String :=
  (d.name, Instantiate.lineSignals (d.text.getD "").toList)

namespace SignalLayout

/-- The name with the blank behind it also stands at the end of the word `signal` with the blank behind
that, and takes its place. -/
def swallowed (s : SignalLayout) : Bool :=
  s.listed.others.isEmpty && s.listed.afterFirst.chars == s.afterWord.chars &&
    s.listed.first.chars.isSuffixOf s.keyword.chars

def entry (s : SignalLayout) : String × List String :=
  (ofList s.listed.last.chars, if s.swallowed then [] else [ofList s.listed.last.chars])

def entries (s : SignalLayout) : List (String × List String) :=
  replicate s.listed.names.length s.entry

/-- What they should be reported as: each name in a declaration of its own. -/
def declared (s : SignalLayout) : List (String × List String) :=
  s.listed.names.map fun n => (ofList n.chars, [ofList n.chars])

/-- One name is declared, and it is not swallowed. -/
def Faithful (s : SignalLayout) : Prop :=
  (∀ n ∈ s.listed.names, n.chars = s.listed.last.chars) ∧ s.swallowed = false

instance (s : SignalLayout) : Decidable s.Faithful :=
  inferInstanceAs (Decidable (_ ∧ _))

theorem entries_eq_declared_iff (s : SignalLayout) : s.entries = s.declared ↔ s.Faithful := by
  have some : s.listed.last ∈ s.listed.names := getLast_mem _
  rw [entries, eq_comm, eq_replicate_iff]
  simp only [declared, List.length_map, List.forall_mem_map, true_and]
  constructor
  · intro same
    refine ⟨fun n member => ?_, ?_⟩
    · exact ofList_injective (congrArg Prod.fst (same n member))
    · have names := congrArg Prod.snd (same _ some)
      cases taken : s.swallowed with
      | false => rfl
      | true => simp [entry, taken] at names
  · rintro ⟨same, kept⟩ n member
    simp [entry, kept, same n member]

/-- The name stands in the blanks and letters before it only if it is swallowed there. -/
theorem swallowed_of_prefix (s : SignalLayout) (single : s.afterWord.chars = [b])
    (more : s.listed.more ≠ []) {tail : List Char} {j : Nat} (inside : j ≤ s.keyword.chars.length)
    (stands : s.listed.text <+: (s.keyword.chars ++ b :: (s.listed.text ++ ':' :: tail)).drop j) :
    s.listed.others = [] ∧ s.listed.afterFirst.chars = [b] ∧ s.listed.first.chars = s.keyword.chars.drop j := by
  obtain ⟨rest, same⟩ := stands
  have blank : isBlank b = true := s.afterWord.blank b (by simp [single])
  rw [List.drop_append_of_le_length inside, NameList.text, List.append_assoc] at same
  obtain ⟨first, same⟩ := cut_unique (p := isWord) same s.listed.first.wordy
    (by
      intro c head
      rw [head?_append_of_ne_nil _ more] at head
      exact s.listed.more_wordless_head c head)
    (fun c member => s.word.wordy c (mem_of_mem_drop member))
    (by
      rintro c ⟨⟩
      exact isWord_of_isBlank blank)
  obtain ⟨d, ds, letters⟩ := exists_cons_of_ne_nil s.listed.first.nonempty
  have wordy : isWord d = true := s.listed.first.wordy d (by simp [letters])
  -- behind the blank stands the first letter of the name, and no further blank and no comma
  rw [NameList.more, letters] at same
  cases others : s.listed.others with
  | nil =>
    refine ⟨rfl, ?_, first⟩
    rw [others, flatMap_nil, append_nil] at same
    rw [NameList.more, others, flatMap_nil, append_nil] at more
    obtain ⟨a, as, blanks⟩ := exists_cons_of_ne_nil more
    rw [blanks] at same ⊢
    cases as with
    | nil => exact congrArg (fun x => [x]) (cons.inj same).1
    | cons a' as =>
      obtain rfl := (cons.inj (cons.inj same).2).1
      have second := s.listed.afterFirst.blank a' (by simp [blanks])
      rw [isWord_of_isBlank second] at wordy
      exact absurd wordy Bool.false_ne_true
  | cons n others' =>
    rw [others, List.append_assoc] at same
    obtain ⟨-, same⟩ := cut_unique (p := isBlank) (show _ = [b] ++ _ from same)
      s.listed.afterFirst.blank (by rintro c ⟨⟩; decide) (by simpa using blank)
      (by
        rintro c ⟨⟩
        exact isBlank_of_isWord wordy)
    obtain rfl := (cons.inj same).1
    exact absurd wordy (by decide)

theorem swallowed_iff (s : SignalLayout) (single : s.afterWord.chars = [b]) :
    s.swallowed = true ↔ s.listed.others = [] ∧ s.listed.afterFirst.chars = [b] ∧
      s.listed.first.chars <:+ s.keyword.chars := by
  simp [swallowed, single, and_assoc]

/-- The text of an entry: the last name takes the place of the list, or that of the end of the word. -/
theorem replaceFirst_listed (s : SignalLayout) (single : s.afterWord.chars = [b]) (tail : List Char) :
    replaceFirst (ofList (s.keyword.chars ++ b :: (s.listed.text ++ ':' :: tail)))
        (ofList s.listed.text) (ofList s.listed.last.chars) =
      ofList (s.keyword.chars ++
        if s.swallowed then s.listed.text ++ ':' :: tail else b :: (s.listed.last.chars ++ ':' :: tail)) := by
  have nonempty : s.listed.text ≠ [] := by simp [NameList.text, s.listed.first.nonempty]
  by_cases alone : s.listed.more = []
  · -- the list is the name itself
    have others : s.listed.others = [] := by
      have none := (append_eq_nil_iff.mp alone).2
      cases found : s.listed.others with
      | nil => rfl
      | cons n rest => simp [found, ListedName.text] at none
    have kept : s.swallowed = false := by
      rw [Bool.eq_false_iff, ne_eq, swallowed_iff s single]
      rintro ⟨-, blanks, -⟩
      rw [NameList.more, blanks] at alone
      simp at alone
    have last : s.listed.last = s.listed.first := by simp [NameList.last, NameList.names, others]
    rw [kept, last, NameList.text, alone, append_nil, replaceFirst_self]
    rfl
  by_cases taken : s.swallowed = true
  · obtain ⟨others, blanks, front, word⟩ := (swallowed_iff s single).mp taken
    have last : s.listed.last = s.listed.first := by simp [NameList.last, NameList.names, others]
    have listed : s.listed.text = s.listed.first.chars ++ [b] := by
      simp [NameList.text, NameList.more, others, blanks]
    have whole : s.keyword.chars ++ b :: (s.listed.text ++ ':' :: tail) =
        front ++ (s.listed.text ++ (s.listed.text ++ ':' :: tail)) := by
      simp [← word, listed]
    have early : ∀ j < front.length,
        ¬s.listed.text <+: (front ++ (s.listed.text ++ (s.listed.text ++ ':' :: tail))).drop j := by
      intro j before stands
      have length := congrArg List.length word
      rw [List.length_append] at length
      rw [← whole] at stands
      obtain ⟨-, -, first⟩ := swallowed_of_prefix s single alone (by omega) stands
      have shorter := congrArg List.length first
      rw [length_drop] at shorter
      omega
    rw [whole, replaceFirst_at nonempty early, toList_ofList, last, ← List.append_assoc, word,
      if_pos taken]
  · have whole : s.keyword.chars ++ b :: (s.listed.text ++ ':' :: tail) =
        (s.keyword.chars ++ [b]) ++ (s.listed.text ++ ':' :: tail) := by
      simp
    have early : ∀ j < (s.keyword.chars ++ [b]).length,
        ¬s.listed.text <+: ((s.keyword.chars ++ [b]) ++ (s.listed.text ++ ':' :: tail)).drop j := by
      intro j before stands
      rw [List.length_append, List.length_singleton] at before
      rw [← whole] at stands
      obtain ⟨others, blanks, first⟩ := swallowed_of_prefix s single alone (by omega) stands
      exact taken ((swallowed_iff s single).mpr ⟨others, blanks, first ▸ drop_suffix _ _⟩)
    rw [whole, replaceFirst_at nonempty early, toList_ofList, if_neg taken]
    simp

end SignalLayout

theorem shared_of_signalMatch (matched : SignalMatch s stop m) : shared "" m =
      { text := some "", type := some (ofList s.type.chars), name := "",
        tag := Text.toLower (ofList s.keyword.chars) } := by
  refine shared_of_parts "" ?_ ?_ matched.tag matched.type s.word.nonempty s.type.nonempty
  · rw [Match.named?, matched.names]
    rfl
  · rw [Match.hasName, matched.names]
    rfl

namespace SignalLayout

theorem collapse_keyword (s : SignalLayout) (rest : List Char) :
    collapseFrom false (s.keyword.chars ++ rest) = s.keyword.chars ++ collapseFrom false rest :=
  collapseFrom_word false s.word.nonempty s.word.solid rest

theorem lineSignals_entry (s : SignalLayout) (blank : isBlank b = true) (tail : List Char) :
    Instantiate.lineSignals (collapseFrom false (s.keyword.chars ++
        if s.swallowed then s.listed.text ++ ':' :: tail else b :: (s.listed.last.chars ++ ':' :: tail))) =
      if s.swallowed then [] else [ofList s.listed.last.chars] := by
  rw [collapse_keyword]
  split
  · obtain ⟨c, cs, letters⟩ := exists_cons_of_ne_nil s.listed.first.nonempty
    have solid := isBlank_of_isWord (s.listed.first.wordy c (by simp [letters]))
    rw [NameList.text, letters, cons_append, cons_append, collapseFrom, if_neg (by simp [solid])]
    exact Instantiate.lineSignals_glued s.keyword solid _
  · rw [collapseFrom, if_pos blank, if_neg (by simp), collapseFrom_word true s.listed.last.nonempty s.listed.last.solid,
      collapseFrom, if_neg (by decide)]
    exact Instantiate.lineSignals_signal s.keyword s.listed.last _

theorem trim_matched (s : SignalLayout) (single : s.afterWord.chars = [b]) (g : Gap) :
    ∃ tail, Text.trim (ofList (g.chars ++ s.text)) =
      ofList (s.keyword.chars ++ b :: (s.listed.text ++ ':' :: tail)) := by
  obtain ⟨c, cs, letters⟩ := exists_cons_of_ne_nil s.word.nonempty
  have keyword : s.keyword.chars = c :: cs := letters
  have solid := isBlank_of_isWord (s.word.wordy c (by simp [letters]))
  have opens : (s.keyword.chars ++ b :: s.listed.text).head? = some c := by
    rw [keyword]
    rfl
  have written : s.text = (s.keyword.chars ++ b :: s.listed.text) ++
      ':' :: (s.afterColon.chars ++ s.type.chars) := by
    simp [text, behindWord, single]
  obtain ⟨tail, trimmed⟩ := trim_keeps_front (d := ':') opens solid (by decide)
    (s.afterColon.chars ++ s.type.chars)
  refine ⟨tail, ?_⟩
  rw [Text.trim_lead g.blank, written, trimmed, List.append_assoc, List.cons_append]

end SignalLayout

theorem report_addIdentifier (matched : SignalMatch s stop m)
    {d : Declaration} (other : d.tag ≠ "port") {type identifier : String} (named : Text.trim identifier = ofList s.listed.last.chars) :
    signalReport (addIdentifier m (ofList s.listed.text) type identifier d) = s.entry := by
  obtain ⟨b, single⟩ := length_eq_one_iff.mp matched.narrow
  have blank : isBlank b = true := s.afterWord.blank b (by simp [single])
  obtain ⟨g, whole⟩ := matched.text
  obtain ⟨tail, trimmed⟩ := s.trim_matched single g
  rw [← whole] at trimmed
  simp only [addIdentifier, beq_iff_eq, other, ↓reduceIte, signalReport, SignalLayout.entry, named, trimmed,
    s.replaceFirst_listed single, Option.getD_some, collapse, toList_ofList, s.lineSignals_entry blank]

/-- A declaration gives one entry for each of its names, and all of them are those of the last name. -/
theorem ofMatch_of_signalMatch (matched : SignalMatch s stop m) :
    ∃ ds, ofMatch "" m = .ok ds ∧ ds.map signalReport = s.entries := by
  have entity : Text.toLower (ofList s.type.chars) ≠ "entity" := fun equal =>
    s.type.unreserved.1 (spells_of_toLower (by decide) equal)
  have architecture : Text.toLower (ofList s.type.chars) ≠ "architecture" := fun equal =>
    s.type.unreserved.2 (spells_of_toLower (by decide) equal)
  have other : Text.toLower (ofList s.keyword.chars) ≠ "port" := by
    rw [s.keyword.spelled.toLower_eq (by decide)]
    decide
  have cut := s.listed.identifiers
  have parts := shared_of_signalMatch matched
  have name := matched.name
  generalize split : splitOn (replaceChar (ofList s.listed.text) ' ' "") ',' = identifiers at cut
  have nonempty : identifiers ≠ [] := by
    rintro rfl
    simp [NameList.names] at cut
  obtain ⟨e, added⟩ : ∃ e, addIdentifiers m (ofList s.listed.text) (shared "" m) identifiers = .ok e :=
    addIdentifiers_total (show _ = some (ofList s.type.chars) by rw [parts])
  obtain ⟨type, d', same, built⟩ := addIdentifiers_last added nonempty
  have last : Text.trim (identifiers.getLast nonempty) = ofList s.listed.last.chars := by
    rw [← getLast_map (f := Text.trim) (by simpa using nonempty)]
    simp only [cut, NameList.last, getLast_map]
  have report : signalReport e = s.entry := by
    rw [built]
    exact report_addIdentifier matched (by rwa [same, parts]) last
  have length : identifiers.length = s.listed.names.length := by
    simpa using congrArg List.length cut
  refine ⟨identifiers.map fun _ => e, ?_, ?_⟩
  · rw [parts] at added
    simp [ofMatch, parts, entity, architecture, name, split, added]
  · rw [SignalLayout.entries, List.map_map, ← length, ← List.map_const']
    simp only [Function.comp_def, report]

end VhdlWorkbench.Design

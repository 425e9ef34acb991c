import VhdlWorkbench.Proofs.LookupPlaces
import VhdlWorkbench.Proofs.SignalLayout

/-!
Looking up signals that are declared in a list: only the first name of the list is found.
-/

namespace VhdlWorkbench.Design

open String (ofList toList_ofList)
open Pattern Pattern.Node Declaration List Text Option

theorem NameList.ends_head (l : NameList) (rest : List Char) :
    ∀ c, (l.more ++ ':' :: rest).head? = some c → endsWord c = true := by
  rw [NameList.more, append_assoc]
  apply l.afterFirst.ends_head
  cases l.others with
  | nil =>
    rintro c ⟨⟩
    decide
  | cons n others =>
    rintro c ⟨⟩
    decide

section Forms

variable {text : Array Char} {pos : Nat} {rest : List Char} {name : Identifier} (s : SignalLayout) (g : Gap)

section

variable (here : textFrom text pos = g.chars ++ (s.text ++ rest))
include here

theorem text_eq :
    textFrom text pos = g.chars ++ (s.word.chars ++ (s.afterWord.chars ++ (s.behindWord ++ rest))) := by
  rw [here, SignalLayout.text, append_assoc, append_assoc]
  rfl

theorem not_opening {word : String} {p : Char} (first : word.toList.head? = some p) (low : plainCode p < 128)
    (apart : 's'.toNat ≠ plainCode p) : ¬Opening [word] text pos := by
  intro opening
  obtain ⟨word', member, reads⟩ := reads_of_opening opening (text_eq s g here) (s.afterWord.wordless_head _)
  obtain rfl := mem_singleton.mp member
  exact s.keyword.spelled.not_reads (by decide) (show _ = some 's' by decide) first low apart reads

theorem not_named (proper : ¬Reads (ofList name.chars) s.keyword.chars) {t t' : Thread} (place : t.pos = pos) :
    ¬Reaches text (nameInList (ofList name.chars)) lineOptions t t' := by
  intro reached
  have atWord := text_eq s g here
  rw [← place] at atWord
  refine proper (reads_of_nameInList atWord ?_ reached)
  intro c head
  rw [head?_append_of_ne_nil _ s.afterWord.nonempty] at head
  simp [endsWord, s.afterWord.blank c (mem_of_head? head)]

/-- At the blanks before a declaration of signals its first name can be found only. -/
theorem first_of_signal {m : Match}
    (found : (Regex.ofNode lineOptions (signalForm (nameInList (ofList name.chars)))).matchAt text pos false = some m) :
    LineStart text pos ∧ Reads (ofList name.chars) s.listed.first.chars := by
  obtain ⟨_, t, ⟨_, toWord, last⟩, _, listed, -⟩ := Regex.matchAt_front 3 found
  obtain ⟨line, g', w, ⟨word, member, reads⟩, there⟩ := reaches_tag rfl reads_objectWord toWord
  obtain ⟨b, blank, atBlank, -⟩ := reaches_blank last
  rw [atBlank] at there
  refine ⟨line, ?_⟩
  obtain ⟨lower, letters⟩ := objectWords_lower word member
  have stops : Stops isWord (b :: textFrom text t.pos) := by
    rintro c ⟨⟩
    exact isWord_of_isBlank blank
  obtain ⟨-, same⟩ := cut_unique (p := isBlank) ((text_eq s g here).symm.trans there) g.blank
    (s.word.blankless_head _) g'.blank ((reads.identifier lower letters).blankless_head _)
  obtain ⟨-, same⟩ := cut_unique (p := isWord) same s.word.wordy (s.afterWord.wordless_head _)
    (reads.wordy lower) stops
  obtain ⟨d, blanks, split⟩ := exists_cons_of_ne_nil s.afterWord.nonempty
  have blank' : ∀ c ∈ blanks, isBlank c = true := fun c inside =>
    s.afterWord.blank c (by simp [split, inside])
  rw [split, SignalLayout.behindWord, NameList.text] at same
  have atNames := (cons.inj same).2.symm
  simp only [append_assoc, cons_append] at atNames
  exact reads_of_nameInList (g := ⟨blanks, blank'⟩) atNames (s.listed.ends_head _) listed

/-- Where a declaration of signals begins, no name but the first of the list is declared. -/
theorem first_of_declaredAt (proper : ¬Reads (ofList name.chars) s.keyword.chars)
    (declared : DeclaredAt (ofList name.chars) text pos) :
    Reads (ofList name.chars) s.listed.first.chars := by
  obtain ⟨form, listed, m, found⟩ := declared
  rw [formsOf_objects] at listed
  simp only [mem_cons, not_mem_nil, or_false] at listed
  rcases listed with rfl | rfl | rfl | rfl | rfl | rfl | rfl
  · exact (first_of_signal s g here found).2
  · obtain ⟨-, t, t', _, place, reached, -⟩ := passes_of_port found
    exact absurd reached (not_named s g here proper place)
  · exact absurd (opening_of_constant found) (not_opening s g here (p := 'c') rfl (by decide) (by decide))
  · obtain ⟨-, t, t', _, place, reached, -⟩ := passes_of_generic found
    exact absurd reached (not_named s g here proper place)
  · exact absurd (opening_of_record found) (not_opening s g here (p := 't') rfl (by decide) (by decide))
  · exact absurd (opening_of_alias found) (not_opening s g here (p := 'a') rfl (by decide) (by decide))
  · exact absurd (opening_of_externalAlias found) (not_opening s g here (p := 'a') rfl (by decide) (by decide))

end

end Forms

section Run

variable {text : Array Char} {rest : List Char} {name : Identifier} {t r : Thread} {k : Continuation}

theorem exec_nameInList {first : Identifier} {g : Gap} {more : List Char}
    (reads : Reads (ofList name.chars) first.chars)
    (listed : ∀ c ∈ more, isBlank c = true ∨ isWord c = true ∨ c = ',')
    (stops : Stops isWord more)
    (here : textFrom text t.pos = g.chars ++ (first.chars ++ (more ++ ':' :: rest)))
    (before : ∀ d, text[t.pos - 1]? = some d → t.pos ≠ 0 → isWord d = false)
    (next : k { t with pos := t.pos + g.chars.length + first.chars.length + more.length } = some r) :
    exec text (nameInList (ofList name.chars)) lineOptions t k = some r := by
  have apart : Stops isWord (more ++ ':' :: rest) := wordless_head_of_list stops
  have atFirst := textFrom_append here
  have behind := textFrom_append atFirst
  obtain ⟨c, cs, letters⟩ := exists_cons_of_ne_nil first.nonempty
  have opened : Anchor.holds text lineOptions .wordEdge (t.pos + g.chars.length) = true := by
    refine (wordEdge_before_iff (by rw [head?_of_textFrom atFirst, letters]; rfl)
      (first.wordy c (by simp [letters]))).mpr ?_
    cases blanks : g.chars.getLast? with
    | none =>
      rw [getLast?_eq_none_iff.mp blanks]
      exact before
    | some b =>
      intro d there _
      rw [(getElem?_last_of_textFrom here blanks).2] at there
      obtain rfl := some.inj there
      exact isWord_of_isBlank (g.blank b (mem_of_getLast? blanks))
  simp only [nameInList, exec_seq]
  -- no comma stands before the first name
  refine exec_maybe_of_stop ?_ ?_
  · intro d head
    rw [here] at head
    rw [Bool.eq_false_iff]
    intro comma
    obtain rfl := (charAccepts_mark (o := lineOptions) (by decide)).mp comma
    exact first.head_ne g _ (by decide) (by decide) head
  refine exec_gap g here (first.blankless_head _) (Nat.zero_le _) ?_
  rw [edge, exec_anchor_of_holds opened]
  refine exec_pasted reads atFirst ?_
  rw [← edge, exec_edge first atFirst apart rfl]
  by_cases empty : more = []
  · rw [empty] at behind next
    exact exec_optional_of_none (exec_listTail_of_colon behind) next
  · exact exec_optional_of_some (exec_listTail listed empty behind next)

end Run

/-- What a match of a found signal is read as. -/
def FoundAs (s : SignalLayout) (name : Identifier) (m : Match) : Prop :=
  ∃ d, ofMatch (ofList name.chars) m = .ok [d] ∧ d.name = ofList name.chars ∧
    d.type = some (collapse (ofList s.type.chars))

theorem exists_found {text : Array Char} {pos : Nat} {rest : List Char} {name : Identifier} (s : SignalLayout)
    (g : Gap) (reads : Reads (ofList name.chars) s.listed.first.chars)
    (here : textFrom text pos = g.chars ++ (s.text ++ ';' :: rest)) (line : LineStart text pos) :
    ∃ m, (Regex.ofNode lineOptions (signalForm (nameInList (ofList name.chars)))).matchAt text pos false =
      some m ∧ FoundAs s name m := by
  obtain ⟨b, blanks, split⟩ := exists_cons_of_ne_nil s.afterWord.nonempty
  have blank : isBlank b = true := s.afterWord.blank b (by simp [split])
  have others : ∀ c ∈ blanks, isBlank c = true := fun c member => s.afterWord.blank c (by simp [split, member])
  have parts : textFrom text pos = g.chars ++ (s.keyword.chars ++ b :: ((blanks ++ s.listed.text) ++ ':' ::
      (s.afterColon.chars ++ (s.type.chars ++ ';' :: rest)))) := by
    simp [here, SignalLayout.text, SignalLayout.behindWord, split]
  have behindWord := textFrom_append (textFrom_append parts)
  have takes : TakesNames (nameInList (ofList name.chars)) text (pos + g.chars.length + s.keyword.chars.length + 1)
      (blanks ++ s.listed.text) := by
    refine fun spans => ⟨spans, rfl, rfl, fun k r next => ?_⟩
    have atNames := textFrom_cons behindWord
    rw [NameList.text, append_assoc, append_assoc] at atNames
    refine exec_nameInList (g := ⟨blanks, others⟩) reads s.listed.more_listed s.listed.more_wordless_head atNames ?_ ?_
    · intro d there _
      rw [Nat.add_sub_cancel, head?_of_textFrom behindWord] at there
      obtain rfl := some.inj there
      exact isWord_of_isBlank blank
    · rwa [NameList.text, length_append, length_append, ← Nat.add_assoc, ← Nat.add_assoc] at next
  obtain ⟨m, found, -, names, tag, named, type⟩ := exists_objectMatch s g blank parts line takes
  have undirected : m.named? "dir" = none := by rw [Match.named?, names]; rfl
  have unvalued : m.hasName "value" = false := by rw [Match.hasName, names]; rfl
  refine ⟨m, found, _, ofMatch_of_parts name undirected unvalued tag type named
    s.word.nonempty s.type.nonempty ?_ s.type.unreserved, rfl, rfl⟩
  intro spelled
  exact absurd (spelled.length_eq.symm.trans s.keyword.spelled.length_eq) (by decide)

/-- A name of a list that is declared nowhere else is found with the type of the list if it is the first of
its list, and otherwise it is not found. -/
theorem listed_signal_found_iff_first (s : SignalLayout) (place : LinePlace) {source : String} {back : List Char}
    (text : searched source = ofList (place.text (s.text ++ ';' :: back))) (single : '\n' ∉ s.text) :
    ∀ name ∈ s.listed.names, ¬Reads (ofList name.chars) s.keyword.chars →
      (∀ pos, DeclaredAt (ofList name.chars) (searched source).toList.toArray pos →
        place.front.length ≤ pos ∧ pos ≤ (place.text s.text).length) →
      if Reads (ofList name.chars) s.listed.first.chars then
        ∃ d, lookup source (ofList name.chars) 4 = .ok d ∧ d.name = ofList name.chars ∧
          d.type = some (collapse (ofList s.type.chars))
      else lookup source (ofList name.chars) 4 = .ok (notFound (ofList name.chars)) := by
  intro name _ proper alone
  have chars : (searched source).toList = place.text (s.text ++ ';' :: back) := by rw [text, toList_ofList]
  -- the forms can match at the blanks before the declaration only
  have lead {pos : Nat} (declared : DeclaredAt (ofList name.chars) (searched source).toList.toArray pos) :
      ∃ g : Gap, textFrom (searched source).toList.toArray pos = g.chars ++ (s.text ++ ';' :: back) := by
    obtain ⟨low, high⟩ := alone pos declared
    obtain ⟨i, rfl⟩ := Nat.exists_eq_add_of_le low
    have line := lineStart_of_declaredAt declared
    rw [chars] at line ⊢
    exact ⟨place.leadFrom i, place.textFrom_lead _ (place.lead_of_lineStart single high line)⟩
  split
  · next reads =>
    have each : ∀ i m, (Regex.ofNode lineOptions (signalForm (nameInList (ofList name.chars)))).matchAt
        (searched source).toList.toArray i false = some m → FoundAs s name m := by
      intro i m matched
      have declared : DeclaredAt (ofList name.chars) (searched source).toList.toArray i :=
        ⟨_, mem_cons_self, m, matched⟩
      obtain ⟨g, here⟩ := lead declared
      obtain ⟨m', same, known⟩ := exists_found s g reads here (lineStart_of_declaredAt declared)
      obtain rfl := some.inj (matched.symm.trans same)
      exact known
    obtain ⟨i, before, line⟩ := place.exists_lineStart (s.text ++ ';' :: back)
    obtain ⟨_, there, -⟩ := exists_found s (place.leadFrom i) reads (place.textFrom_lead _ before) line
    rw [← chars] at there
    obtain ⟨m, found, d, read, named, typed⟩ := Regex.search?_of_matchAt rfl (fun i _ => each i) there
    exact ⟨d, lookup_of_form name [] (formsOf_objects _) (forall_mem_nil _) found read, named, typed⟩
  · next later =>
    refine lookup_of_undeclared name fun pos declared => ?_
    obtain ⟨g, here⟩ := lead declared
    exact later (first_of_declaredAt s g here proper declared)

theorem sample_searched :
    searched "x;\nsignal a, b : bit;\nb <= a;" =
      ofList (samplePlace.text (bitPair.text ++ ';' :: "\nb <= a;".toList)) := by
  rw [searched, show "x;\nsignal a, b : bit;\nb <= a;" =
    ofList (samplePlace.text (bitPair.text ++ ';' :: "\nb <= a;".toList)) by decide]
  rw [Source.withoutComments_plain (by decide)]
  decide

theorem sample_alone (name : String) (listed : name ∈ ["a", "b"]) (pos : Nat)
    (declared : DeclaredAt name (searched "x;\nsignal a, b : bit;\nb <= a;").toList.toArray pos) :
    samplePlace.front.length ≤ pos ∧ pos ≤ (samplePlace.text bitPair.text).length := by
  have silent : ∀ name ∈ ["a", "b"], ∀ pos ≤ 29, pos < 2 ∨ 20 < pos → ∀ form ∈ formsOf name 4,
      ((Regex.ofNode form.1 form.2).matchAt
        (samplePlace.text (bitPair.text ++ ';' :: "\nb <= a;".toList)).toArray pos false).isNone = true := by
    decide
  exact declaredAt_between sample_searched (silent name listed) declared

/-- Of two signals in a list the first is found and the second is not. -/
theorem listed_signal_found_iff_first_pair :
    '\n' ∉ bitPair.text ∧
      (∃ d, lookup "x;\nsignal a, b : bit;\nb <= a;" "a" 4 = .ok d ∧ d.name = "a" ∧ d.type = some "bit") ∧
      lookup "x;\nsignal a, b : bit;\nb <= a;" "b" 4 = .ok (notFound "b") := by
  have single : '\n' ∉ bitPair.text := by decide
  have each := listed_signal_found_iff_first bitPair samplePlace sample_searched single
  have first := each ⟨"a".toList, by decide, by decide⟩ (by simp [bitPair, bitSignals, NameList.names]) (by decide)
    (sample_alone "a" (by decide))
  have second := each ⟨"b".toList, by decide, by decide⟩ (by simp [bitPair, bitSignals, NameList.names]) (by decide)
    (sample_alone "b" (by decide))
  rw [if_pos (by decide)] at first
  rw [if_neg (by decide)] at second
  exact ⟨single, first, second⟩

/-- The second signal of a list is not found, although the source declares it. -/
theorem second_signal_of_list_not_found : lookup "signal a, b : bit;\n" "b" 4 = .ok (notFound "b") := by
  have cleaned : searched "signal a, b : bit;\n" = ofList "signal a, b : bit;\n".toList := by
    rw [searched, show "signal a, b : bit;\n" = ofList "signal a, b : bit;\n".toList by decide,
      Source.withoutComments_plain (by decide)]
    decide +kernel
  have silent : ∀ pos ≤ 19, ∀ form ∈ formsOf "b" 4,
      ((Regex.ofNode form.1 form.2).matchAt "signal a, b : bit;\n".toList.toArray pos false).isNone = true := by
    decide +kernel
  refine lookup_of_undeclared ⟨"b".toList, by decide, by decide⟩ fun pos declared => ?_
  have nowhere : 1 ≤ pos ∧ pos ≤ 0 := declaredAt_between cleaned (fun pos inside _ => silent pos inside) declared
  omega

end VhdlWorkbench.Design

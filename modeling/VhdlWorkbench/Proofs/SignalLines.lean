import VhdlWorkbench.Instantiate.Connection
import VhdlWorkbench.Proofs.ReportedPorts

/-!
The signals that lines of text declare, and the lines that are made from ports.
-/

namespace VhdlWorkbench.Instantiate

open String (ofList toList_ofList)
open Pattern Pattern.Node Design List String Option Text

variable {rest : List Char} {pos : Nat}

/-- The identifiers that a line declares as signals: those between the word `signal` and the colon. -/
def lineSignals (line : List Char) : List String :=
  let words := dropBlanks line
  let listed := words.drop 6
  if Spells "signal" (words.take 6) ∧ listed.head?.any isBlank = true ∧ ':' ∈ listed then
    ((Text.splitOn (ofList (listed.takeWhile (· != ':'))) ',').map Text.trim).filter isName
  else []

def declaredNames (text : String) : List String :=
  (linesFrom [] text.toList).flatMap lineSignals

theorem lineSignals_nil : lineSignals [] = [] := by decide

theorem lineSignals_tab (line : List Char) : lineSignals ('\t' :: line) = lineSignals line := by
  have dropped : dropBlanks ('\t' :: line) = dropBlanks line :=
    dropWhile_cons_of_pos (by decide)
  simp only [lineSignals, dropped]

theorem linesFrom_feed (line cs rest : List Char) : (linesFrom line (cs ++ '\n' :: rest)).flatMap lineSignals =
      (linesFrom line cs).flatMap lineSignals ++ (linesFrom [] rest).flatMap lineSignals := by
  have feed (line : List Char) :
      linesFrom line ('\n' :: rest) = line.reverse :: linesFrom [] rest :=
    linesFrom_cons line (by simp)
  fun_induction linesFrom line cs with
  | case1 line empty =>
    obtain rfl := isEmpty_iff.mp empty
    simp [feed, lineSignals_nil]
  | case2 line _ => simp [feed]
  | case3 line cs ih => simpa [linesFrom] using ih
  | case4 line c cs unpaired ends ih =>
    -- A carriage return at the end of `cs` forms one line end with the line feed.
    by_cases last : c = '\r' ∧ cs = []
    · obtain ⟨rfl, rfl⟩ := last
      simp [linesFrom]
    · rw [cons_append, linesFrom_cons line, if_pos ends, flatMap_cons, ih, flatMap_cons,
        List.append_assoc]
      intro carriage
      cases cs with
      | nil => exact absurd ⟨carriage, rfl⟩ last
      | cons d ds => simpa using fun feeds : d = '\n' => unpaired ds carriage (by rw [feeds])
  | case5 line c cs unpaired goes ih =>
    rw [cons_append, linesFrom_cons line, if_neg goes, ih]
    rintro rfl
    exact absurd (by decide) goes

theorem linesFrom_tab (line cs : List Char) : (linesFrom (line ++ ['\t']) cs).flatMap lineSignals =
      (linesFrom line cs).flatMap lineSignals := by
  fun_induction linesFrom line cs with
  | case1 line empty =>
    obtain rfl := isEmpty_iff.mp empty
    decide
  | case2 line _ => simp [linesFrom, lineSignals_tab]
  | case3 line cs _ => simp [linesFrom, lineSignals_tab]
  | case4 line c cs unpaired ends _ => simp [linesFrom, ends, lineSignals_tab]
  | case5 line c cs unpaired goes ih => simpa [linesFrom, goes] using ih

def indented (lines : List String) : String :=
  join (lines.map fun line => "\t" ++ line ++ "\n")

theorem indented_append (lines more : List String) : indented (lines ++ more) = indented lines ++ indented more := by
  simp [indented]

theorem declaredNames_indented (lines : List String) : declaredNames (indented lines) = lines.flatMap declaredNames := by
  induction lines with
  | nil => rfl
  | cons line lines ih =>
    have whole : (indented (line :: lines)).toList =
        '\t' :: line.toList ++ '\n' :: (indented lines).toList := by
      simp [indented, join_cons]
    rw [flatMap_cons, ← ih, declaredNames, whole, linesFrom_feed]
    congr 1
    rw [linesFrom_cons [] (by simp), if_neg (by decide)]
    exact linesFrom_tab [] line.toList

variable {text : Array Char}

theorem portWord_eq : portWord =
      { node := start ++ gap ++ lit "port" ++ edge, options := { ignoreCase := true }, slots := 1,
        names := [] } :=
  rfl

theorem portWord_matchAt (here : textFrom text 0 = ['p', 'o', 'r', 't'] ++ rest)
    (stops : Stops isWord rest) : portWord.matchAt text 0 false =
      some { source := text, start := 0, stop := 4, spans := Array.replicate 1 none, names := [] } := by
  have runs : exec text (start ++ gap ++ lit "port" ++ edge) { ignoreCase := true }
      ⟨0, Array.replicate 1 none⟩ (fun t => some t) = some ⟨4, Array.replicate 1 none⟩ := by
    simp only [exec_seq]
    rw [start, exec_anchor_of_holds (by simp [Anchor.holds])]
    refine exec_gap ⟨[], by simp⟩ here ?_ (Nat.zero_le _) ?_
    · rintro c head
      obtain rfl := some.inj head
      decide
    refine exec_keyword (⟨['p', 'o', 'r', 't'], by decide⟩ : Keyword "port") (by decide) here ?_
    rw [exec_edge ⟨['p', 'o', 'r', 't'], by decide, by decide⟩ here stops rfl]
    rfl
  simp only [Regex.matchAt, portWord_eq, Nat.not_lt_zero, Bool.false_and, Bool.false_eq_true, ↓reduceIte, runs,
    Nat.add_zero, map_some]

theorem portWord_matchAt_later (later : pos ≠ 0) : portWord.matchAt text pos false = none := by
  cases found : portWord.matchAt text pos false with
  | none => rfl
  | some m =>
    rw [portWord_eq] at found
    obtain ⟨_, first, -⟩ := Regex.matchAt_front 3 found
    simp [Anchor.holds, later] at first

theorem portWord_replace (stops : Stops isWord rest) :
    portWord.replace "signal" (ofList (['p', 'o', 'r', 't'] ++ rest)) =
      ofList (['s', 'i', 'g', 'n', 'a', 'l'] ++ rest) := by
  have only : portWord.matches_ (ofList (['p', 'o', 'r', 't'] ++ rest)) =
      [{ source := (['p', 'o', 'r', 't'] ++ rest).toArray, start := 0, stop := 4,
         spans := Array.replicate 1 none, names := [] }] := by
    rw [Regex.matches_, toList_ofList,
      Regex.matchesFrom_of_matchAt rfl (portWord_matchAt (textFrom_zero _) stops) (by simp),
      Regex.matchesFrom_eq_nil rfl fun i _ => portWord_matchAt_later (by simp)]
  have behind : segment (['p', 'o', 'r', 't'] ++ rest).toArray 4 (['p', 'o', 'r', 't'] ++ rest).toArray.size =
      rest := by
    simp [Pattern.segment]
  simp only [Regex.replace, Regex.replaceBy, only, toList_ofList, Regex.splice, behind]
  rfl

/-- What stands at a place where the pattern of directions matches. -/
structure DirectionStart (text : Array Char) (pos : Nat) : Prop where
  edge : Anchor.holds text { ignoreCase := true } .wordEdge pos = true
  word : ∃ d ∈ ["in", "out", "inout"],
    wordStandsAt text { ignoreCase := true } d.toList pos = true ∧
      ∃ c, text[pos + d.length]? = some c ∧ isBlank c = true

theorem directionWord_eq : directionWord =
      { node := edge ++ .capture 1 none (choice [lit "in", lit "out", lit "inout"]) ++ gap1,
        options := { ignoreCase := true }, slots := 2, names := [] } :=
  rfl

theorem directionStart_of_matchAt {m : Match}
    (found : directionWord.matchAt text pos false = some m) : DirectionStart text pos := by
  obtain ⟨t, reached, -⟩ := Regex.matchAt_reaches found
  rw [directionWord_eq] at reached
  obtain ⟨_, ⟨_, ⟨edge, rfl⟩, ⟨_, word, rfl⟩⟩, n, enough, -, blanks, -⟩ := reached
  refine ⟨edge, ?_⟩
  obtain ⟨c, there, blank⟩ := blanks 0 enough
  rw [accepts_space] at blank
  rcases word with input | output | both
  · obtain ⟨stands, rfl⟩ := reaches_lit input
    exact ⟨"in", by simp, stands, c, there, blank⟩
  · obtain ⟨stands, rfl⟩ := reaches_lit output
    exact ⟨"out", by simp, stands, c, there, blank⟩
  · obtain ⟨stands, rfl⟩ := reaches_lit both
    exact ⟨"inout", by simp, stands, c, there, blank⟩

theorem direction_letters : ∀ d ∈ ["in", "out", "inout"],
      (d.toList.head? = some 'i' ∨ d.toList.head? = some 'o') ∧
        ∀ p ∈ d.toList, charAccepts { ignoreCase := true } p ':' = false := by
  decide

theorem not_directionStart_in_word {seg : List Char}
    (here : textFrom text pos = seg ++ ':' :: rest) (wordy : ∀ c ∈ seg, isWord c = true) : ¬DirectionStart text pos := by
  rintro ⟨-, d, member, stands, c, there, blank⟩
  rw [getElem?_of_textFrom here] at there
  rcases Nat.lt_trichotomy d.length seg.length with inside | colon | beyond
  · rw [getElem?_append_left inside] at there
    have := isWord_of_isBlank blank
    rw [wordy c (mem_of_getElem? there)] at this
    exact Bool.noConfusion this
  · rw [colon, getElem?_append_right (Nat.le_refl _), Nat.sub_self] at there
    obtain rfl := some.inj there
    exact absurd blank (by decide)
  · obtain ⟨cs, tail, split, pairs⟩ := (wordStandsAt_iff _ _).mp stands
    have reaches : seg.length < cs.length := by
      rw [← pairs.length_eq, String.length_toList]
      exact beyond
    have colon : cs[seg.length]? = some ':' := by
      have same : (cs ++ tail)[seg.length]? = cs[seg.length]? := getElem?_append_left reaches
      rw [← same, ← split, here]
      simp
    obtain ⟨bound, letter⟩ := List.getElem?_eq_some_iff.mp colon
    have accepted := pairs.get (by rwa [pairs.length_eq]) bound
    rw [get_eq_getElem, get_eq_getElem, letter,
      (direction_letters d member).2 _ (getElem_mem _)] at accepted
    exact Bool.noConfusion accepted

theorem signal_letters : ∀ i < 7, i ≠ 1 → ∀ c ∈ ['s', 'i', 'g', 'n', 'a', 'l', ' '][i]?.toList,
      charAccepts { ignoreCase := true } 'i' c = false ∧
        charAccepts { ignoreCase := true } 'o' c = false := by
  decide

theorem not_directionStart_in_signal {i : Nat}
    (here : textFrom text 0 = ['s', 'i', 'g', 'n', 'a', 'l', ' '] ++ rest) (inside : i < 7) :
    ¬DirectionStart text i := by
  rintro ⟨edge, d, member, stands, -⟩
  by_cases second : i = 1
  · -- The letter behind the first one does not begin a word.
    subst second
    have front : textFrom text 0 = ['s'] ++ (['i', 'g', 'n', 'a', 'l', ' '] ++ rest) := here
    have behind := (wordEdge_behind_iff front (by simp) (by decide)).mp edge 'i' rfl
    exact absurd behind (by decide)
  · obtain ⟨cs, tail, split, pairs⟩ := (wordStandsAt_iff _ _).mp stands
    have letter : text[i]? = ['s', 'i', 'g', 'n', 'a', 'l', ' '][i]? := by
      rw [← Nat.zero_add i, getElem?_of_textFrom here, getElem?_append_left (by simpa using inside),
        Nat.zero_add]
    rw [head?_of_textFrom split] at letter
    have first := (direction_letters d member).1
    generalize d.toList = ps at first pairs
    cases pairs with
    | nil => simp at first
    | cons accepted pairs =>
      have refused := signal_letters i inside second _ (mem_toList.mpr letter.symm)
      rcases first with input | output
      · obtain rfl := some.inj input
        exact absurd accepted (by simp [refused.1])
      · obtain rfl := some.inj output
        exact absurd accepted (by simp [refused.2])

theorem isLineEnd_of_solid {c : Char} (solid : isBlank c = false) : isLineEnd c = false := by
  cases ends : isLineEnd c with
  | false => rfl
  | true =>
    rw [isBlank_of_isLineEnd ends] at solid
    exact Bool.noConfusion solid

theorem unbroken_signal (name : Identifier) {tail : List Char} (single : ∀ c ∈ tail, isLineEnd c = false) :
    ∀ c ∈ ['s', 'i', 'g', 'n', 'a', 'l', ' '] ++ (name.chars ++ ':' :: tail), isLineEnd c = false := by
  have signal : ∀ c ∈ ['s', 'i', 'g', 'n', 'a', 'l', ' '], isLineEnd c = false := by decide
  intro c member
  rw [mem_append, mem_append] at member
  rcases member with letter | letter | behind
  · exact signal c letter
  · exact isLineEnd_of_solid (isBlank_of_isWord (name.wordy c letter))
  · rcases mem_cons.mp behind with rfl | later
    · decide
    · exact single c later

theorem asSignal_port (name : Identifier) (single : ∀ c ∈ rest, isLineEnd c = false) :
    ∃ tail, asSignal (ofList (['p', 'o', 'r', 't'] ++ ' ' :: (name.chars ++ ':' :: rest))) =
        ofList (['s', 'i', 'g', 'n', 'a', 'l', ' '] ++ (name.chars ++ ':' :: tail)) ∧
      ∀ c ∈ tail, isLineEnd c = false := by
  obtain ⟨front, front_eq⟩ :
      ∃ front, front = ['s', 'i', 'g', 'n', 'a', 'l', ' '] ++ (name.chars ++ [':']) := ⟨_, rfl⟩
  have whole (tail : List Char) :
      ['s', 'i', 'g', 'n', 'a', 'l', ' '] ++ (name.chars ++ ':' :: tail) = front ++ tail := by
    simp [front_eq]
  have fails : ∀ i < front.length, directionWord.matchAt (front ++ rest).toArray i false = none := by
    intro i inside
    have here := textFrom_zero (front ++ rest)
    rw [← whole] at here
    cases found : directionWord.matchAt (front ++ rest).toArray i false with
    | none => rfl
    | some m =>
      have starts := directionStart_of_matchAt found
      rw [← whole] at starts
      by_cases early : i < 7
      · exact absurd starts (not_directionStart_in_signal here early)
      · obtain ⟨j, rfl⟩ : ∃ j, i = 7 + j := ⟨i - 7, by omega⟩
        have later : j ≤ name.chars.length := by
          simp [front_eq] at inside
          omega
        have behind := textFrom_append here
        rw [Nat.zero_add] at behind
        have inName := textFrom_add (['s', 'i', 'g', 'n', 'a', 'l', ' '] ++ (name.chars ++ ':' :: rest)).toArray
          ['s', 'i', 'g', 'n', 'a', 'l', ' '].length j
        rw [behind, drop_append_of_le_length later] at inName
        exact absurd starts (not_directionStart_in_word inName fun c member =>
          name.wordy c (mem_of_mem_drop member))
  obtain ⟨tail, replaced, kept⟩ := Regex.replace_keeps_front rfl " " fails
  refine ⟨tail, ?_, ?_⟩
  · rw [asSignal, portWord_replace (by simp [show isWord ' ' = false by decide]), whole tail, ← replaced,
      ← whole]
    rfl
  · intro c member
    rcases kept c member with inside | space
    · rw [← whole] at inside
      exact unbroken_signal name single c inside
    · obtain rfl : c = ' ' := by simpa using space
      decide

theorem linesFrom_single (line : List Char) {cs : List Char} (nonempty : cs ≠ [])
    (single : ∀ c ∈ cs, isLineEnd c = false) : linesFrom line cs = [line.reverse ++ cs] := by
  induction cs generalizing line with
  | nil => exact absurd rfl nonempty
  | cons c cs ih =>
    have here := single c mem_cons_self
    rw [linesFrom_cons line (by rintro rfl; exact absurd here (by decide)), if_neg (by simp [here])]
    cases cs with
    | nil => simp [linesFrom]
    | cons d ds =>
      rw [ih (c :: line) (cons_ne_nil d ds) fun e member => single e (mem_cons_of_mem c member)]
      simp

theorem dropBlanks_keyword (w : Keyword "signal") (rest : List Char) :
    dropBlanks (w.chars ++ rest) = w.chars ++ rest := by
  have head := (w.identifier (by decide) (by decide)).blankless_head rest
  cases split : w.chars ++ rest with
  | nil => rfl
  | cons c cs => exact dropWhile_cons_of_neg (by simp [head c (congrArg head? split)])

theorem lineSignals_signal (w : Keyword "signal") (name : Identifier) (tail : List Char) :
    lineSignals (w.chars ++ ' ' :: (name.chars ++ ':' :: tail)) = [ofList name.chars] := by
  have length : w.chars.length = 6 := w.spelled.length_eq
  have kept := dropBlanks_keyword w (' ' :: (name.chars ++ ':' :: tail))
  have blankless {c : Char} (member : c ∈ name.chars) := isBlank_of_isWord (name.wordy c member)
  have listed : ((' ' :: name.chars) ++ ':' :: tail).takeWhile (· != ':') = ' ' :: name.chars := by
    refine takeWhile_append_of_stop ?_ (by simp)
    intro c member
    rcases mem_cons.mp member with rfl | letter
    · decide
    · simpa using fun colon : c = ':' => name.not_mem (by decide) (colon ▸ letter)
  have commaless : ',' ∉ ' ' :: name.chars := by
    simpa using name.not_mem (by decide)
  have trimmed : Text.trim (ofList (' ' :: name.chars)) = ofList name.chars := by
    rw [← append_nil name.chars, ← singleton_append]
    refine (trim_blanks (by decide) name.nonempty ?_ ?_ (forall_mem_nil _)).trans (by simp)
    · exact fun c head => blankless (mem_of_head? head)
    · exact fun c last => blankless (mem_of_getLast? last)
  simp only [lineSignals, kept]
  rw [if_pos]
  · simp only [drop_left' length, ← cons_append, listed, Text.splitOn,
      toList_ofList, splitFrom_single [] _ commaless, reverse_nil, nil_append,
      map_cons, map_nil, trimmed, filter_cons, name.isName, ↓reduceIte, filter_nil]
  · simp only [take_left' length, drop_left' length]
    refine ⟨w.spelled, ?_, ?_⟩
    · exact show isBlank ' ' = true by decide
    · simp

theorem lineSignals_glued (w : Keyword "signal") {c : Char} (solid : isBlank c = false) (tail : List Char) :
    lineSignals (w.chars ++ c :: tail) = [] := by
  have length : w.chars.length = 6 := w.spelled.length_eq
  simp only [lineSignals, dropBlanks_keyword w (c :: tail), drop_left' length]
  rw [if_neg]
  rintro ⟨-, blank, -⟩
  rw [head?_cons, any_some, solid] at blank
  exact Bool.false_ne_true blank

theorem declaredNames_asSignal {name : Identifier} {text : String} (declares : Declaration.DeclaresPort name text) :
    declaredNames (asSignal text ++ ";") = [ofList name.chars] := by
  obtain ⟨rest, rfl, blankless⟩ := declares
  have single : ∀ c ∈ rest, isLineEnd c = false := by
    intro c member
    rcases blankless c member with rfl | solid
    · decide
    · exact isLineEnd_of_solid solid
  obtain ⟨tail, signal, plain⟩ := asSignal_port name single
  have line : (asSignal (ofList (['p', 'o', 'r', 't'] ++ ' ' :: (name.chars ++ ':' :: rest))) ++
      ";").toList = ['s', 'i', 'g', 'n', 'a', 'l', ' '] ++ (name.chars ++ ':' :: (tail ++ [';'])) := by
    rw [signal, toList_append, toList_ofList, List.append_assoc, List.append_assoc]
    rfl
  have unbroken : ∀ c ∈ tail ++ [';'], isLineEnd c = false := by
    simpa using fun c member => member.elim (plain c) fun semicolon => semicolon ▸ by decide
  rw [declaredNames, line, linesFrom_single [] (by simp) (unbroken_signal name unbroken),
    flatMap_singleton]
  exact lineSignals_signal ⟨['s', 'i', 'g', 'n', 'a', 'l'], by decide⟩ name (tail ++ [';'])

end VhdlWorkbench.Instantiate

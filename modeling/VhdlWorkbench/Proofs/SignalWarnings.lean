import Mathlib.Data.List.Chain
import VhdlWorkbench.Proofs.NameSearch
import VhdlWorkbench.Proofs.SignalLines
import VhdlWorkbench.Proofs.Words

/-!
What is said about a name that is declared like the port it is to be connected to.
-/

namespace VhdlWorkbench.Text

open List Option String Text

theorem toLower_eq_self {s : String} (low : ∀ c ∈ s.toList, lowerChar c = c) : toLower s = s := by
  have kept (cs before : List Char) (low : ∀ c ∈ cs, lowerChar c = c) : lowerFrom before cs = cs := by
    induction cs generalizing before with
    | nil => rfl
    | cons c cs ih =>
      have here := low c mem_cons_self
      have dotted : c ≠ 'İ' := by
        rintro rfl
        exact absurd here (by decide)
      have sigma : c ≠ 'Σ' := by
        rintro rfl
        exact absurd here (by decide)
      simp [lowerFrom, dotted, sigma, here, ih _ fun d member => low d (mem_cons_of_mem c member)]
  rw [toLower, kept _ _ low, ofList_toList]

/-- No two blanks stand side by side. -/
def Spaced (cs : List Char) : Prop :=
  cs.IsChain fun a b => isBlank a = true → isBlank b = false

theorem Spaced.behind {rest : List Char} (spaced : Spaced rest) {cs : List Char} (solid : ∀ c ∈ cs, isBlank c = false) :
    Spaced (cs ++ rest) := by
  induction cs with
  | nil => exact spaced
  | cons c cs ih =>
    refine IsChain.cons (ih fun d member => solid d (mem_cons_of_mem c member)) fun d _ blank => ?_
    simp [solid c mem_cons_self] at blank

theorem Spaced.blank {cs : List Char} (spaced : Spaced cs) (solid : ∀ c ∈ cs.head?, isBlank c = false) :
    Spaced (' ' :: cs) :=
  IsChain.cons spaced fun c head _ => solid c head

def blanks (s : String) : Nat :=
  s.toList.countP isBlank

end VhdlWorkbench.Text

namespace VhdlWorkbench.Instantiate

open Pattern Pattern.Node Design List Option String Text

variable {rest : List Char}

variable {text : Array Char}

/-- A stretch of a text has a number of blanks. -/
structure Blanks (text : Array Char) (start stop n : Nat) : Prop where
  forward : start ≤ stop
  count : (segment text start stop).countP isBlank = n

theorem Blanks.trans {start middle stop n k : Nat} (first : Blanks text start middle n)
    (second : Blanks text middle stop k) : Blanks text start stop (n + k) where
  forward := Nat.le_trans first.forward second.forward
  count := by rw [Regex.segment_split first.forward second.forward, countP_append, first.count, second.count]

variable {t t' : Thread}

theorem blanks_of_gap (spaced : Text.Spaced text.toList)
    (reached : Reaches text gap1 { ignoreCase := true } t t') : Blanks text t.pos t'.pos 1 := by
  obtain ⟨n, some, -, blank, rfl⟩ := reached
  simp only [accepts_space (o := { ignoreCase := true })] at blank
  obtain ⟨c, here, first⟩ := blank 0 some
  by_cases one : n = 1
  · subst one
    have seg := segment_of_textFrom (show textFrom text.toList.toArray _ = [c] ++ _ from textFrom_of_getElem? here)
    exact ⟨Nat.le_add_right _ _, (congrArg (countP isBlank) seg).trans (by simp [first])⟩
  · obtain ⟨d, there, second⟩ := blank 1 (by omega)
    obtain ⟨inside, rfl⟩ := Array.getElem?_eq_some_iff.mp there
    obtain ⟨_, rfl⟩ := Array.getElem?_eq_some_iff.mp here
    have apart := isChain_iff_getElem.mp spaced t.pos (by simpa using inside) first
    simp [show isBlank text[t.pos + 1] = false from apart] at second

theorem blanks_of_direction
    (reached : Reaches text (choice [lit "in", lit "out", lit "inout"]) { ignoreCase := true } t t') :
    Blanks text t.pos t'.pos 0 := by
  obtain ⟨word, lower, reached⟩ :
      ∃ word, Lower word ∧ Reaches text (lit word) { ignoreCase := true } t t' := by
    rcases reached with input | output | both
    · exact ⟨"in", by decide, input⟩
    · exact ⟨"out", by decide, output⟩
    · exact ⟨"inout", by decide, both⟩
  obtain ⟨w, reads, here, rfl⟩ := reaches_word reached
  refine ⟨Nat.le_add_right _ _, ?_⟩
  rw [segment_of_textFrom here, countP_eq_zero]
  exact fun c member => by simp [isBlank_of_isWord (reads.wordy lower c member)]

/-- A direction is replaced with the blank behind it, a direction between blanks with both. -/
theorem blanks_of_matchAt {pos : Nat} {b : Bool} {m : Match} (spaced : Text.Spaced text.toList) :
    (directionWord.matchAt text pos b = some m → Blanks text m.start m.stop 1) ∧
      (spacedDirection.matchAt text pos b = some m → Blanks text m.start m.stop 2) := by
  constructor
  · intro found
    obtain ⟨t, reached, rfl⟩ := Regex.matchAt_reaches found
    obtain ⟨_, ⟨_, ⟨-, rfl⟩, ⟨u, word, rfl⟩⟩, behind⟩ := reached
    have one := blanks_of_gap spaced behind
    exact (blanks_of_direction word).trans one
  · intro found
    obtain ⟨t, reached, rfl⟩ := Regex.matchAt_reaches found
    obtain ⟨_, ⟨_, before, ⟨u, word, rfl⟩⟩, behind⟩ := reached
    have one := blanks_of_gap spaced behind
    exact ((blanks_of_gap spaced before).trans (blanks_of_direction word)).trans one

def signalText (name : Identifier) (type : List Char) : String :=
  ofList (['s', 'i', 'g', 'n', 'a', 'l'] ++ ' ' :: (name.chars ++ ':' :: ' ' :: type))

def portText (name : Identifier) (d : Direction) (type : List Char) : String :=
  ofList (['p', 'o', 'r', 't'] ++ ' ' :: (name.chars ++ ':' :: ' ' :: (d.word.toList ++ ' ' :: type)))

section Texts

variable (name : Identifier) (d : Direction) {type : List Char}

theorem portWord_replace_portText (type : List Char) :
    portWord.replace "signal" (portText name d type) = signalText name (d.word.toList ++ ' ' :: type) :=
  portWord_replace (by simp [show isWord ' ' = false by decide])

theorem Direction.solid : ∀ c ∈ d.word.toList, isBlank c = false := by
  cases d <;> decide

theorem spaced_signalText (spaced : Text.Spaced (' ' :: type)) : Text.Spaced (signalText name type).toList := by
  have solid : ∀ c ∈ name.chars, isBlank c = false :=
    fun c member => isBlank_of_isWord (name.wordy c member)
  have colon : Text.Spaced ([':'] ++ ' ' :: type) := spaced.behind (by decide)
  rw [signalText, toList_ofList]
  exact ((colon.behind solid).blank (name.blankless_head _)).behind (by decide)

theorem spaced_direction (spaced : Text.Spaced (' ' :: type)) :
    Text.Spaced (' ' :: (d.word.toList ++ ' ' :: type)) := by
  refine (spaced.behind (Direction.solid d)).blank ?_
  cases d <;> simp [Direction.word] <;> decide

theorem blanks_signalText (type : List Char) :
    blanks (signalText name type) = 2 + type.countP isBlank := by
  have solid : name.chars.countP isBlank = 0 := by
    rw [countP_eq_zero]
    exact fun c member => by simp [isBlank_of_isWord (name.wordy c member)]
  have letters : ['s', 'i', 'g', 'n', 'a', 'l'].countP isBlank = 0 := by decide
  have blank : isBlank ' ' = true := by decide
  have colon : isBlank ':' = false := by decide
  simp only [blanks, signalText, toList_ofList, countP_append, countP_cons, solid,
    letters, blank, colon]
  simp
  omega

theorem blanks_direction :
    (d.word.toList ++ ' ' :: type).countP isBlank = 1 + type.countP isBlank := by
  have none : d.word.toList.countP isBlank = 0 := by
    cases d <;> decide
  have blank : isBlank ' ' = true := by decide
  simp [none, blank]
  omega

theorem reaches_blank (here : textFrom text t.pos = ' ' :: rest) :
    Reaches text gap1 { ignoreCase := true } t { t with pos := t.pos + 1 } := by
  refine ⟨1, Nat.le_refl 1, by simp, fun i small => ⟨' ', ?_, by decide⟩, rfl⟩
  rw [Nat.lt_one_iff.mp small, getElem?_of_textFrom here]
  rfl

theorem reaches_direction_word (here : textFrom text t.pos = d.word.toList ++ rest) :
    Reaches text (choice [lit "in", lit "out", lit "inout"]) { ignoreCase := true } t
      { t with pos := t.pos + d.word.toList.length } := by
  have word : Reaches text (lit d.word) { ignoreCase := true } t { t with pos := t.pos + d.word.toList.length } := by
    have spelled : Spells d.word d.word.toList := by cases d <;> decide
    obtain ⟨t', reached, same⟩ := exec_reaches _ _ _ some _
      (exec_keyword (o := { ignoreCase := true }) ⟨d.word.toList, spelled⟩ d.lower here rfl)
    obtain rfl := some.inj same
    exact reached
  cases d with
  | input => exact Or.inl word
  | output => exact Or.inr (Or.inl word)
  | both => exact Or.inr (Or.inr word)

theorem spacedDirection_found (type : List Char) :
    spacedDirection.matches_ (signalText name (d.word.toList ++ ' ' :: type)) ≠ [] := by
  obtain ⟨pos, here⟩ : ∃ pos, textFrom (signalText name (d.word.toList ++ ' ' :: type)).toList.toArray pos =
      ' ' :: (d.word.toList ++ ' ' :: type) :=
    ⟨(['s', 'i', 'g', 'n', 'a', 'l'] ++ ' ' :: (name.chars ++ [':'])).length, by simp [signalText, textFrom]⟩
  have atWord := textFrom_cons here
  obtain ⟨m, found⟩ := Regex.exists_matchAt (r := spacedDirection) (by decide)
    (Nat.le_of_lt (lt_size_of_textFrom here (cons_ne_nil _ _)))
    ⟨_, ⟨_, reaches_blank (t := ⟨pos, Array.replicate 2 none⟩) here, _, reaches_direction_word d atWord, rfl⟩,
      reaches_blank (textFrom_append atWord)⟩
  exact Regex.matches_ne_nil rfl found

theorem blanks_asSignal (spaced : Text.Spaced (' ' :: type)) :
    blanks (asSignal (portText name d type)) = 3 + type.countP isBlank := by
  have whole := spaced_signalText name (spaced_direction d spaced)
  have kept := Regex.countP_replaceBy (r := directionWord) (f := fun _ => " ") isBlank _ _
    fun _ _ _ found => ⟨((blanks_of_matchAt whole).1 found).count, (by decide : _ = 1)⟩
  have before := blanks_signalText name (d.word.toList ++ ' ' :: type)
  rw [blanks_direction] at before
  rw [asSignal, portWord_replace_portText]
  have same : blanks (directionWord.replace " " (signalText name (d.word.toList ++ ' ' :: type))) =
      blanks (signalText name (d.word.toList ++ ' ' :: type)) := Nat.add_right_cancel kept
  omega

theorem blanks_spacedDirection (spaced : Text.Spaced (' ' :: type)) :
    blanks (spacedDirection.replace " " (signalText name (d.word.toList ++ ' ' :: type))) <
      3 + type.countP isBlank := by
  have whole := spaced_signalText name (spaced_direction d spaced)
  have lost := Regex.countP_replaceBy (r := spacedDirection) (f := fun _ => " ") isBlank _ _
    fun _ _ _ found => ⟨((blanks_of_matchAt whole).2 found).count, (by decide : _ = 1)⟩
  have found := length_pos_iff.mpr (spacedDirection_found name d type)
  have before := blanks_signalText name (d.word.toList ++ ' ' :: type)
  rw [blanks_direction] at before
  simp only [blanks, Regex.replace] at before ⊢
  omega

end Texts

theorem readPieces_plain (r : Regex) {cs : List Char} (plain : '\\' ∉ cs) :
    readPieces r cs.length cs = .ok (cs.map .char) := by
  induction cs with
  | nil => rfl
  | cons c cs ih =>
    have other : c ≠ '\\' := fun same => plain (same ▸ mem_cons_self)
    simp only [length_cons, readPieces, ih fun later => plain (mem_cons_of_mem c later)]
    rfl

theorem replaceWith_name (r : Regex) (new : Identifier) (s : String) :
    r.replaceWith (ofList new.chars) s = .ok (r.replace (ofList new.chars) s) := by
  rw [Regex.replaceWith, toList_ofList, readPieces_plain r (new.not_mem (by decide))]
  refine congrArg Except.ok (congrArg (r.replaceBy · s) (funext fun m => ?_))
  simp [Piece.fill, flatMap_map]

theorem wholeWord_name (own : Identifier) : wholeWord (ofList own.chars) =
    .ok (Regex.ofNode {} (edge ++ .pasted (ofList own.chars) ++ edge)) := by
  rw [wholeWord, build_of_wordy rfl (by simpa using own.wordy)]
  rfl

theorem blanks_renamed (own new : Identifier) (s : String) :
    blanks ((Regex.ofNode {} (edge ++ .pasted (ofList own.chars) ++ edge)).replace
      (ofList new.chars) s) = blanks s := by
  have solid (name : Identifier) : (ofList name.chars).toList.countP isBlank = 0 := by
    rw [toList_ofList, countP_eq_zero]
    exact fun c member => by simp [isBlank_of_isWord (name.wordy c member)]
  refine Nat.add_right_cancel (Regex.countP_replaceBy isBlank 0 0 fun pos b m found => ?_)
  obtain ⟨t, reached, rfl⟩ := Regex.matchAt_reaches found
  obtain ⟨_, ⟨_, ⟨-, rfl⟩, word⟩, ⟨-, rfl⟩⟩ := reached
  obtain ⟨_, tail, here, rfl, rfl⟩ := (Takes.pasted rfl _ _ _ _).mp word
  rw [segment_of_textFrom here]
  exact ⟨solid own, solid new⟩

/-- What is said about a name whose declaration is not that of the port. -/
def mismatch (port other : String) : String :=
  "Signal/port not matching: \"" ++ port ++ "\" vs  \"" ++ other ++ "\""

/-- The text of a name's declaration as it is compared: in lower case, and that of a port as one of a
signal. -/
def plainText (other : Declaration) (text : String) : String :=
  if other.tag = "port" then
    spacedDirection.replace " " (Text.toLower (portWord.replace "signal" (Text.toLower text)))
  else Text.toLower text

theorem checkConnection_declared {p other : Declaration} {port text renamed : String} {r : Regex}
    (portTold : p.text = some port) (told : other.text = some text) (nonempty : text.isEmpty = false)
    (directed : other.tag = "port" → other.direction.isSome = true ∧ p.direction.isSome = true)
    (built : wholeWord other.name = .ok r) (kept : r.replaceWith p.name (plainText other text) = .ok renamed) :
    checkConnection p.toEntry other.toEntry = .ok (asSignal port ++ ";",
      if other.tag = "port" ∧ other.direction ≠ p.direction then "Incompatible port direction"
      else if Text.toLower (asSignal port) = renamed then "" else mismatch port text) := by
  have tag : (some other.tag == some "port") = decide (other.tag = "port") := rfl
  have said : (if (Text.toLower (asSignal port) != renamed) = true then
      Except.ok (asSignal port ++ ";", mismatch port text) else .ok (asSignal port ++ ";", "")) =
        (Except.ok (asSignal port ++ ";", if Text.toLower (asSignal port) = renamed then "" else mismatch port text) :
          Except Fault (String × String)) := by
    by_cases same : Text.toLower (asSignal port) = renamed
    · rw [if_neg (by simp [same]), if_pos same]
    · rw [if_pos (by simpa using same), if_neg same]
  unfold checkConnection
  simp only [Declaration.toEntry, portTold, told, Field.ofOption, Field.demand, Field.read, nonempty, built, tag, bind,
    Except.bind, pure, Except.pure, Bool.false_eq_true, ↓reduceIte]
  by_cases isPort : other.tag = "port"
  · obtain ⟨⟨a, here⟩, b, there⟩ := (directed isPort).imp isSome_iff_exists.mp isSome_iff_exists.mp
    rw [plainText, if_pos isPort] at kept
    simp only [isPort, decide_true, ↓reduceIte, here, there]
    rw [kept]
    by_cases opposed : some a = some b
    · rw [if_neg (by simp [opposed])]
      exact (if_neg (by simp [opposed])).trans said
    · rw [if_pos ⟨trivial, opposed⟩]
      exact if_pos (bne_iff_ne.mpr opposed)
  · rw [plainText, if_neg isPort] at kept
    simp only [isPort, decide_false, Bool.false_eq_true, ↓reduceIte, kept, false_and]
    exact said

def portOf (d : Declaration) (name : Identifier) (direction : Direction) (type : List Char) : Declaration :=
  { d with
    text := some (portText name direction type)
    name := ofList name.chars
    tag := "port"
    direction := some direction.word }

def signalOf (d : Declaration) (name : Identifier) (type : List Char) : Declaration :=
  { d with
    text := some (signalText name type)
    name := ofList name.chars
    tag := "signal" }

section Alike

variable {name : Identifier} {direction : Direction} {type : List Char}

theorem low_declaration (nameLow : ∀ c ∈ name.chars, lowerChar c = c)
    (restLow : ∀ c ∈ rest, lowerChar c = c) {front : List Char} (letters : ∀ c ∈ front, lowerChar c = c) :
    ∀ c ∈ (ofList (front ++ ' ' :: (name.chars ++ ':' :: ' ' :: rest))).toList, lowerChar c = c := by
  have marks : ∀ c ∈ [' ', ':'], lowerChar c = c := by decide
  simp only [toList_ofList, mem_append, mem_cons] at *
  grind

theorem low_direction (direction : Direction) (typeLow : ∀ c ∈ type, lowerChar c = c) :
    ∀ c ∈ direction.word.toList ++ ' ' :: type, lowerChar c = c := by
  have letters : ∀ c ∈ direction.word.toList ++ [' '], lowerChar c = c := by
    cases direction <;> decide
  rw [append_cons]
  exact forall_mem_append.mpr ⟨letters, typeLow⟩

theorem toLower_asSignal (nameLow : ∀ c ∈ name.chars, Text.lowerChar c = c)
    (typeLow : ∀ c ∈ type, Text.lowerChar c = c) :
    Text.toLower (asSignal (portText name direction type)) = asSignal (portText name direction type) := by
  refine Text.toLower_eq_self ?_
  rw [asSignal, portWord_replace_portText]
  obtain ⟨cs, replaced, known⟩ := @Regex.replace_keeps_front [] directionWord rfl " "
    (signalText name (direction.word.toList ++ ' ' :: type)).toList (by simp)
  rw [nil_append, nil_append, ofList_toList] at replaced
  rw [replaced, toList_ofList]
  intro c member
  rcases known c member with old | new
  · exact low_declaration nameLow (low_direction direction typeLow) (by decide) c old
  · obtain rfl : c = ' ' := by simpa using new
    decide

/-- A name in lower case whose declaration has fewer blanks than that of the port is said not to match. -/
theorem checkConnection_mismatch {other : Declaration} {text : String} (p : Declaration)
    (spaced : Text.Spaced (' ' :: type)) (nameLow : ∀ c ∈ name.chars, Text.lowerChar c = c)
    (typeLow : ∀ c ∈ type, Text.lowerChar c = c) (told : other.text = some text) (nonempty : text.isEmpty = false)
    (named : other.name = ofList name.chars)
    (directed : other.tag = "port" → other.direction = some direction.word)
    (fewer : Text.blanks (plainText other text) < 3 + type.countP Text.isBlank) :
    (checkConnection (portOf p name direction type).toEntry other.toEntry).map (·.2) =
      .ok (mismatch (portText name direction type) text) := by
  have unlike : Text.toLower (asSignal (portText name direction type)) ≠
      (Regex.ofNode {} (edge ++ .pasted other.name ++ edge)).replace (ofList name.chars)
        (plainText other text) := by
    intro same
    have count := congrArg Text.blanks same
    rw [toLower_asSignal nameLow typeLow, blanks_asSignal name direction spaced, named, blanks_renamed] at count
    omega
  rw [checkConnection_declared (p := portOf p name direction type) rfl told nonempty
    (fun port => by simp [directed port, portOf]) (named ▸ wholeWord_name name) (replaceWith_name _ name _), Except.map,
    if_neg fun opposed => opposed.2 (directed opposed.1), if_neg unlike]

/-- A port and the signal that is declared like it do not pass for the same, and neither do a port and
itself. -/
theorem declared_alike_mismatch (p q : Declaration) (name : Identifier) (direction : Direction)
    (type : List Char) (nameLow : ∀ c ∈ name.chars, Text.lowerChar c = c)
    (typeLow : ∀ c ∈ type, Text.lowerChar c = c) (spaced : Text.Spaced (' ' :: type)) :
    (checkConnection (portOf p name direction type).toEntry (signalOf q name type).toEntry).map (·.2) =
        .ok (mismatch (portText name direction type) (signalText name type)) ∧
      (checkConnection (portOf p name direction type).toEntry (portOf p name direction type).toEntry).map (·.2) =
        .ok (mismatch (portText name direction type) (portText name direction type)) := by
  constructor
  · refine checkConnection_mismatch p spaced nameLow typeLow rfl (by simp [signalText]) rfl (fun port => ?_) ?_
    · exact absurd port (by simp [signalOf])
    · have same : Text.toLower (signalText name type) = signalText name type :=
        Text.toLower_eq_self (low_declaration nameLow typeLow (by decide))
      rw [plainText, if_neg (by simp [signalOf]), same, blanks_signalText]
      omega
  · refine checkConnection_mismatch p spaced nameLow typeLow rfl (by simp [portText]) rfl (fun _ => rfl) ?_
    have restLow := low_direction direction typeLow
    have same : Text.toLower (portText name direction type) = portText name direction type :=
      Text.toLower_eq_self (low_declaration nameLow restLow (by decide))
    have same' : Text.toLower (signalText name (direction.word.toList ++ ' ' :: type)) =
        signalText name (direction.word.toList ++ ' ' :: type) :=
      Text.toLower_eq_self (low_declaration nameLow restLow (by decide))
    rw [plainText, if_pos (by rfl), same, portWord_replace_portText, same']
    exact blanks_spacedDirection name direction spaced

theorem declared_alike_mismatch_clock :
    (checkConnection (portOf {} ⟨['c', 'l', 'k'], by decide, by decide⟩ .input ['b', 'i', 't']).toEntry
        (signalOf {} ⟨['c', 'l', 'k'], by decide, by decide⟩ ['b', 'i', 't']).toEntry).map (·.2) =
      .ok "Signal/port not matching: \"port clk: in bit\" vs  \"signal clk: bit\"" :=
  (declared_alike_mismatch {} {} ⟨['c', 'l', 'k'], by decide, by decide⟩ .input ['b', 'i', 't'] (by decide)
    (by decide) (by simp [Text.Spaced]; decide)).1

/-- The declaration made from the port has a blank too many. -/
theorem clock_signal_mismatch :
    let port : Entry :=
      { text := .text "port clk: in bit", name := .text "clk", tag := .text "port", direction := .text "in" }
    let signal : Entry := { text := .text "signal clk: bit", name := .text "clk", tag := .text "signal" }
    (checkConnection port signal).toOption ≠ some ("signal clk:  bit;", "") ∧
      (checkConnection port signal).toOption = some ("signal clk:  bit;",
        "Signal/port not matching: \"port clk: in bit\" vs  \"signal clk: bit\"") := by
  decide

end Alike

end VhdlWorkbench.Instantiate

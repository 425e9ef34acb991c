import VhdlWorkbench.Instantiate.Connection
import VhdlWorkbench.Proofs.ReportedPorts
import VhdlWorkbench.Proofs.Tables

/-!
The names that a port is connected to: its proper name, or one that extends it.
-/

namespace VhdlWorkbench.Pattern

open String (ofList)
open List Option Regex Except

/-- A pattern takes exactly the texts of a language, wherever they stand. -/
def Takes (o : Options) (p : Node) (L : List Char → Prop) : Prop :=
  ∀ text t t', Reaches text p o t t' ↔
    ∃ seg tail, textFrom text t.pos = seg ++ tail ∧ L seg ∧ t' = { t with pos := t.pos + seg.length }

namespace Takes

variable {o : Options}

theorem seq {p q : Node} {L M : List Char → Prop} (first : Takes o p L) (second : Takes o q M) :
    Takes o (p ++ q) fun cs => ∃ a b, cs = a ++ b ∧ L a ∧ M b := by
  intro text t t'
  constructor
  · rintro ⟨m, left, right⟩
    obtain ⟨a, tail, here, taken, rfl⟩ := (first text t m).mp left
    obtain ⟨b, rest, there, taken', rfl⟩ := (second text _ t').mp right
    rw [textFrom_append here] at there
    refine ⟨a ++ b, rest, ?_, ⟨a, b, rfl, taken, taken'⟩, ?_⟩
    · rw [here, there, append_assoc]
    · rw [length_append, Nat.add_assoc]
  · rintro ⟨_, rest, here, ⟨a, b, rfl, taken, taken'⟩, rfl⟩
    rw [append_assoc] at here
    refine ⟨_, (first text t _).mpr ⟨a, b ++ rest, here, taken, rfl⟩,
      (second text _ _).mpr ⟨b, rest, textFrom_append here, taken', ?_⟩⟩
    rw [length_append, Nat.add_assoc]

theorem congr {p : Node} {L M : List Char → Prop} (takes : Takes o p L) (same : ∀ cs, L cs ↔ M cs) : Takes o p M := by
  obtain rfl : L = M := funext fun cs => propext (same cs)
  exact takes

theorem identifier [Full o] :
    Takes o Node.identifier fun cs => cs ≠ [] ∧ ∀ c ∈ cs, Text.isWord c = true := by
  intro text t t'
  constructor
  · rintro ⟨n, enough, -, taken, rfl⟩
    simp only [accepts_word] at taken
    have size : ((textFrom text t.pos).take n).length = n := by
      obtain ⟨c, there, -⟩ := taken (n - 1) (by omega)
      obtain ⟨bound, -⟩ := Array.getElem?_eq_some_iff.mp there
      rw [length_take, textFrom_length]
      omega
    refine ⟨(textFrom text t.pos).take n, (textFrom text t.pos).drop n, (take_append_drop n _).symm,
      ⟨length_pos_iff.mp (by omega), ?_⟩, by rw [size]⟩
    intro c member
    obtain ⟨i, inside, rfl⟩ := mem_iff_getElem.mp member
    obtain ⟨d, there, wordy⟩ := taken i (by omega)
    rw [getElem?_textFrom] at there
    obtain ⟨_, same⟩ := List.getElem?_eq_some_iff.mp there
    rwa [getElem_take, same]
  · rintro ⟨seg, tail, here, ⟨nonempty, wordy⟩, rfl⟩
    refine ⟨seg.length, length_pos_iff.mpr nonempty, by simp, fun i inside => ⟨seg[i], ?_, ?_⟩, rfl⟩
    · rw [getElem?_of_textFrom here, getElem?_append_left inside, getElem?_eq_getElem inside]
    · rw [accepts_word]
      exact wordy _ (getElem_mem inside)

theorem pasted (cased : o.ignoreCase = false) (word : String) : Takes o (.pasted word) fun cs => cs = word.toList := by
  intro text t t'
  rw [Reaches, wordStandsAt_cased_iff cased]
  constructor
  · rintro ⟨⟨tail, here⟩, rfl⟩
    exact ⟨word.toList, tail, here, rfl, by rw [String.length_toList]⟩
  · rintro ⟨_, tail, here, rfl, rfl⟩
    exact ⟨⟨tail, here⟩, by rw [String.length_toList]⟩

theorem char (cased : o.ignoreCase = false) (c : Char) : Takes o (.one (.char c)) fun cs => cs = [c] := by
  intro text t t'
  constructor
  · rintro ⟨d, there, accepted, rfl⟩
    obtain rfl : c = d := by simpa [Single.accepts, charAccepts, cased] using accepted
    exact ⟨[c], _, textFrom_of_getElem? there, rfl, rfl⟩
  · rintro ⟨_, tail, here, rfl, rfl⟩
    exact ⟨c, head?_of_textFrom here, by simp [Single.accepts, charAccepts, cased], rfl⟩

end Takes

def wholeWords (body : Node) : Regex where
  node := .edge ++ .capture 1 none body ++ .edge
  options := { multiline := true }
  slots := 2

variable {text : Array Char} {body : Node} {L : List Char → Prop}

theorem group_of_wholeWords (takes : Takes { multiline := true } body L) {pos : Nat} {nonempty : Bool}
    {m : Match} (found : (wholeWords body).matchAt text pos nonempty = some m) :
    ∃ seg tail, textFrom text pos = seg ++ tail ∧ L seg ∧ m.group 1 = ofList seg ∧
      Anchor.holds text { multiline := true } .wordEdge pos = true ∧
      Anchor.holds text { multiline := true } .wordEdge (pos + seg.length) = true := by
  obtain ⟨t, reached, rfl⟩ := matchAt_reaches found
  obtain ⟨_, ⟨_, ⟨opens, rfl⟩, ⟨u, inner, rfl⟩⟩, ⟨closes, rfl⟩⟩ := reached
  obtain ⟨seg, tail, here, taken, rfl⟩ := (takes text _ u).mp inner
  refine ⟨seg, tail, here, taken, ?_, opens, closes⟩
  simp only [Match.group, Match.group?, Match.span?, Nat.one_ne_zero, ↓reduceIte, wholeWords]
  rw [Array.getElem?_setIfInBounds_self_of_lt (by simp)]
  simp only [join_some, map_some, getD_some]
  rw [segment_of_textFrom here]

/-- A whole word of the language is found where it stands between other characters. -/
theorem wholeWords_matchAt (takes : Takes { multiline := true } body L) (tried : body.backtracks = true)
    {pos : Nat} {seg tail : List Char} (here : textFrom text pos = seg ++ tail) (taken : L seg)
    (nonempty : seg ≠ []) (wordy : ∀ c ∈ seg, Text.isWord c = true)
    (behind : ∀ d, text[pos - 1]? = some d → pos ≠ 0 → Text.isWord d = false)
    (stops : Stops Text.isWord tail) :
    ∃ m, (wholeWords body).matchAt text pos false = some m := by
  obtain ⟨c, cs, rfl⟩ := exists_cons_of_ne_nil nonempty
  have opens := (wordEdge_before_iff (o := { multiline := true }) (head?_of_textFrom here)
    (wordy c mem_cons_self)).mpr behind
  have closes := (wordEdge_behind_iff (o := { multiline := true }) here nonempty wordy).mpr stops
  have reached : Reaches text (wholeWords body).node (wholeWords body).options
      ⟨pos, Array.replicate 2 none⟩
      ⟨pos + (c :: cs).length,
        (Array.replicate 2 none).setIfInBounds 1 (some (pos, pos + (c :: cs).length))⟩ :=
    ⟨_, ⟨_, ⟨opens, rfl⟩, _, (takes _ _ _).mpr ⟨c :: cs, tail, here, taken, rfl⟩, rfl⟩, closes, rfl⟩
  have room : pos + (wholeWords body).least ≤ text.size := by
    have := textFrom_length text pos
    rw [here, length_append, length_cons] at this
    simp only [wholeWords]
    omega
  have tried' : (wholeWords body).node.backtracks = true := by
    show (Node.seq (.seq .edge (.capture 1 none body)) .edge).backtracks = true
    simp [Node.backtracks, Node.edge, tried]
  exact exists_matchAt tried' room reached

end VhdlWorkbench.Pattern

namespace VhdlWorkbench.Instantiate

open Pattern Pattern.Node List String Option Text Regex Except

variable {ms : List Match} {found : Option (Declaration × String)} {name : String}

def nameLines (names : Names) : String :=
  join "\n" (names.map (·.1))

/-- A pattern is well formed and finds none of the names. -/
def FindsNone (names : Names) (pattern : Node) : Prop :=
  ∃ r, build { multiline := true } pattern = .ok r ∧ r.matches_ (nameLines names) = []

def frontBody (proper : String) : Node :=
  identifier ++ lit "_" ++ .pasted proper

def backBody (proper : String) : Node :=
  .pasted proper ++ lit "_" ++ identifier

/-- There is no name for a port with the proper name. -/
structure Unnamed (s : Matching) (names : Names) (proper : String) : Prop where
  absent : names.lookup proper = none
  front : s.extendsFront = true → FindsNone names (edge ++ captured (frontBody proper) ++ edge)
  back : s.extendsBack = true → FindsNone names (edge ++ captured (backBody proper) ++ edge)

section Search

variable {port : Entry} {names : Names} {d : Declaration} {warning : String}

/-- What a search among matches gives: nothing if there are none, or else the name of one of them. -/
def Outcome (names : Names) (ms : List Match) : Option (Declaration × String) → Prop
  | none => ms = []
  | some (d, _) => ∃ m ∈ ms, names.lookup (m.group 1) = some d

theorem Outcome.of_mergeSort {le : Match → Match → Bool} (outcome : Outcome names (ms.mergeSort le) found) :
    Outcome names ms found := by
  cases found with
  | none =>
    refine eq_nil_iff_forall_not_mem.mpr fun m member => ?_
    have sorted : m ∈ ms.mergeSort le := mem_mergeSort.mpr member
    rw [show ms.mergeSort le = [] from outcome] at sorted
    exact not_mem_nil sorted
  | some found =>
    obtain ⟨m, member, there⟩ := outcome
    exact ⟨m, mem_mergeSort.mp member, there⟩

theorem bestCandidate_outcome {r : Regex} (done : bestCandidate port names r ms = .ok found) :
    Outcome names ms found := by
  induction ms generalizing found with
  | nil =>
    obtain rfl := ok.inj done
    rfl
  | cons m ms ih =>
    rw [bestCandidate] at done
    split at done
    · simp [throw, throwThe, MonadExceptOf.throw] at done
    · next d here =>
      have first : names.lookup (m.group 1) = some d := by
        split at here
        · exact here
        · simp at here
      obtain ⟨⟨_, warning⟩, -, done⟩ := bind_eq_ok.mp done
      have taken : Outcome names (m :: ms) (some (d, warning)) := ⟨m, mem_cons_self, first⟩
      simp only at done
      split at done
      · obtain rfl := ok.inj done
        exact taken
      · obtain ⟨better, rest, done⟩ := bind_eq_ok.mp done
        cases better with
        | none =>
          obtain rfl := ok.inj done
          exact taken
        | some better =>
          obtain rfl := ok.inj done
          obtain ⟨m', later, there⟩ := ih rest
          exact ⟨m', mem_cons_of_mem m later, there⟩

theorem orFault_eq_ok {α : Type} {x : Except PatternError α} {a : α} : orFault x = .ok a ↔ x = .ok a := by
  cases x with
  | error e => simp [orFault, Except.mapError]
  | ok b => simp [orFault, Except.mapError]

theorem extended?_outcome {pattern : Node} (done : extended? port names pattern = .ok found) :
    ∃ r, build { multiline := true } pattern = .ok r ∧
      Outcome names (r.matches_ (nameLines names)) found := by
  obtain ⟨r, built, done⟩ := bind_eq_ok.mp done
  exact ⟨r, orFault_eq_ok.mp built, (bestCandidate_outcome done).of_mergeSort⟩

theorem extended?_eq_none {pattern : Node} :
    extended? port names pattern = .ok none ↔ FindsNone names pattern := by
  constructor
  · intro done
    obtain ⟨r, built, empty⟩ := extended?_outcome done
    exact ⟨r, built, empty⟩
  · rintro ⟨r, built, empty⟩
    rw [extended?, orFault_eq_ok.mpr built]
    show bestCandidate port names r ((r.matches_ (nameLines names)).mergeSort _) = _
    rw [empty, mergeSort_nil]
    rfl

variable {s : Matching} {proper : String}

theorem findName?_of_absent (absent : names.lookup proper = none) : findName? s names port proper =
      (if s.extendsFront = true then extended? port names (edge ++ captured (frontBody proper) ++ edge)
        else .ok none) >>= fun front =>
      match front with
      | some found => .ok (some found)
      | none =>
        if s.extendsBack = true then extended? port names (edge ++ captured (backBody proper) ++ edge)
        else .ok none := by
  rw [findName?, absent]
  cases s.extendsFront <;> rfl

/-- The search gives nothing exactly if there is no name. -/
theorem findName?_eq_none : findName? s names port proper = .ok none ↔ Unnamed s names proper := by
  cases lookup : names.lookup proper with
  | some d =>
    rw [findName?, lookup]
    constructor
    · intro done
      obtain ⟨checked, -, done⟩ := bind_eq_ok.mp done
      exact absurd (ok.inj done) (by simp)
    · intro none
      exact absurd none.absent (by simp [lookup])
  | none =>
    rw [findName?_of_absent lookup]
    constructor
    · intro done
      obtain ⟨front, inFront, done⟩ := bind_eq_ok.mp done
      cases front with
      | some found => exact absurd (ok.inj done) (by simp)
      | none =>
        refine ⟨lookup, fun allowed => ?_, fun allowed => ?_⟩
        · rw [if_pos allowed] at inFront
          exact extended?_eq_none.mp inFront
        · simp only [if_pos allowed] at done
          exact extended?_eq_none.mp done
    · rintro ⟨-, front, back⟩
      refine bind_eq_ok.mpr ⟨none, ?_, ?_⟩
      · split
        · next allowed => exact extended?_eq_none.mpr (front allowed)
        · rfl
      · simp only
        split
        · next allowed => exact extended?_eq_none.mpr (back allowed)
        · rfl

/-- The name is one of the matches of a pattern. -/
def IsMatch (names : Names) (pattern : Node) (d : Declaration) : Prop :=
  ∃ r, build { multiline := true } pattern = .ok r ∧
    ∃ m ∈ r.matches_ (nameLines names), names.lookup (m.group 1) = some d

theorem findName?_eq_some (done : findName? s names port proper = .ok (some (d, warning))) :
    names.lookup proper = some d ∨
      s.extendsFront = true ∧ IsMatch names (edge ++ captured (frontBody proper) ++ edge) d ∨
      s.extendsBack = true ∧ IsMatch names (edge ++ captured (backBody proper) ++ edge) d := by
  cases lookup : names.lookup proper with
  | some e =>
    rw [findName?, lookup] at done
    obtain ⟨checked, -, done⟩ := bind_eq_ok.mp done
    obtain ⟨rfl, -⟩ := Prod.mk.inj (some.inj (ok.inj done))
    exact Or.inl rfl
  | none =>
    rw [findName?_of_absent lookup] at done
    obtain ⟨front, inFront, done⟩ := bind_eq_ok.mp done
    cases front with
    | some found =>
      obtain rfl := some.inj (ok.inj done)
      split at inFront
      · next allowed => exact Or.inr (Or.inl ⟨allowed, extended?_outcome inFront⟩)
      · exact absurd (ok.inj inFront) (by simp)
    | none =>
      simp only at done
      split at done
      · next allowed => exact Or.inr (Or.inr ⟨allowed, extended?_outcome done⟩)
      · exact absurd (ok.inj done) (by simp)

end Search

section Words

open Design (Identifier isName)

/-- A name that a port with the proper name is connected to. -/
def Suits (s : Matching) (proper name : String) : Prop :=
  name = proper ∨
    (s.extendsFront = true ∧ ∃ front, isName front = true ∧ name = front ++ "_" ++ proper) ∨
    (s.extendsBack = true ∧ ∃ back, isName back = true ∧ name = proper ++ "_" ++ back)

variable {proper : String}

theorem takes_front (proper : String) : Takes { multiline := true } (frontBody proper) fun cs =>
      ∃ front : Identifier, cs = front.chars ++ '_' :: proper.toList := by
  refine (Takes.identifier.seq (Takes.char rfl '_')).seq (Takes.pasted rfl proper) |>.congr ?_
  intro cs
  constructor
  · rintro ⟨_, _, rfl, ⟨front, _, rfl, ⟨nonempty, wordy⟩, rfl⟩, rfl⟩
    exact ⟨⟨front, nonempty, wordy⟩, by simp⟩
  · rintro ⟨front, rfl⟩
    exact ⟨front.chars ++ ['_'], proper.toList, by simp, ⟨front.chars, ['_'], rfl, ⟨front.nonempty,
      front.wordy⟩, rfl⟩, rfl⟩

theorem takes_back (proper : String) : Takes { multiline := true } (backBody proper) fun cs =>
      ∃ back : Identifier, cs = proper.toList ++ '_' :: back.chars := by
  refine ((Takes.pasted rfl proper).seq (Takes.char rfl '_')).seq Takes.identifier |>.congr ?_
  intro cs
  constructor
  · rintro ⟨_, back, rfl, ⟨_, _, rfl, rfl, rfl⟩, ⟨nonempty, wordy⟩⟩
    exact ⟨⟨back, nonempty, wordy⟩, by simp⟩
  · rintro ⟨back, rfl⟩
    exact ⟨proper.toList ++ ['_'], back.chars, by simp, ⟨proper.toList, ['_'], rfl, rfl, rfl⟩,
      ⟨back.nonempty, back.wordy⟩⟩

theorem build_front (wordy : ∀ c ∈ proper.toList, isWord c = true) :
    build { multiline := true } (edge ++ captured (frontBody proper) ++ edge) =
      .ok (wholeWords (frontBody proper)) :=
  Design.build_of_wordy rfl wordy

theorem build_back (wordy : ∀ c ∈ proper.toList, isWord c = true) :
    build { multiline := true } (edge ++ captured (backBody proper) ++ edge) =
      .ok (wholeWords (backBody proper)) :=
  Design.build_of_wordy rfl wordy

theorem exists_line {lines : List String} (member : name ∈ lines) :
    ∃ before after, (join "\n" lines).toList = before ++ (name.toList ++ after) ∧
      (∀ c, before.getLast? = some c → c = '\n') ∧ ∀ c, after.head? = some c → c = '\n' := by
  induction lines with
  | nil => simp at member
  | cons line lines ih =>
    cases lines with
    | nil =>
      obtain rfl := mem_singleton.mp member
      exact ⟨[], [], by simp [Text.join], by simp, by simp⟩
    | cons next lines =>
      have joined : (join "\n" (line :: next :: lines)).toList =
          line.toList ++ '\n' :: (join "\n" (next :: lines)).toList := by
        simp [Text.join, String.intercalate_cons_cons]
      rcases mem_cons.mp member with rfl | later
      · exact ⟨[], '\n' :: (join "\n" (next :: lines)).toList, joined, by simp, by simp⟩
      · obtain ⟨before, after, split, ends, opens⟩ := ih later
        refine ⟨line.toList ++ '\n' :: before, after, ?_, ?_, opens⟩
        · rw [joined, split]
          simp
        · intro c last
          rw [getLast?_append, getLast?_cons, some_or] at last
          obtain rfl := some.inj last
          cases final : before.getLast? with
          | none => rfl
          | some d => exact ends d final

section

variable {body : Node} {L : List Char → Prop} (takes : Takes { multiline := true } body L)
include takes

theorem not_findsNone {names : Names} (tried : body.backtracks = true)
    (built : build { multiline := true } (edge ++ captured body ++ edge) = .ok (wholeWords body))
    (member : name ∈ names.map (·.1)) (taken : L name.toList) (named : isName name = true) :
    ¬FindsNone names (edge ++ captured body ++ edge) := by
  rintro ⟨r, same, silent⟩
  obtain rfl := ok.inj (built.symm.trans same)
  obtain ⟨identifier, rfl⟩ := Design.exists_identifier named
  rw [toList_ofList] at taken
  obtain ⟨before, after, split, ends, opens⟩ := exists_line member
  rw [toList_ofList] at split
  have here : textFrom (nameLines names).toList.toArray before.length = identifier.chars ++ after := by
    rw [nameLines, split]
    simp [textFrom]
  have behind : ∀ d, (nameLines names).toList.toArray[before.length - 1]? = some d → before.length ≠ 0 →
      isWord d = false := by
    intro d there inside
    rw [nameLines, split, getElem?_toArray, getElem?_append_left (by omega),
      ← getLast?_eq_getElem?] at there
    obtain rfl := ends d there
    decide
  have stops : Stops isWord after := by
    intro c head
    obtain rfl := opens c head
    decide
  obtain ⟨m, found⟩ := wholeWords_matchAt takes tried here taken identifier.nonempty identifier.wordy
    behind stops
  exact matches_ne_nil rfl found silent

theorem language_of_isMatch {names : Names}
    (built : build { multiline := true } (edge ++ captured body ++ edge) = .ok (wholeWords body))
    {d : Declaration} (found : IsMatch names (edge ++ captured body ++ edge) d) :
    ∃ seg, L seg ∧ names.lookup (ofList seg) = some d := by
  obtain ⟨r, same, m, member, there⟩ := found
  obtain rfl := ok.inj (built.symm.trans same)
  obtain ⟨place, _, here⟩ := exists_matchAt_of_mem member
  obtain ⟨seg, -, -, taken, group, -⟩ := group_of_wholeWords takes here
  exact ⟨seg, taken, group ▸ there⟩

end

variable {s : Matching} {names : Names} {port : Entry}

theorem suits_of_findName? (wordy : ∀ c ∈ proper.toList, isWord c = true) {d : Declaration}
    {warning : String} (done : findName? s names port proper = .ok (some (d, warning))) :
    ∃ name, Suits s proper name ∧ names.lookup name = some d := by
  rcases findName?_eq_some done with same | ⟨allowed, found⟩ | ⟨allowed, found⟩
  · exact ⟨proper, Or.inl rfl, same⟩
  · obtain ⟨_, ⟨front, rfl⟩, there⟩ := language_of_isMatch (takes_front proper) (build_front wordy) found
    refine ⟨_, Or.inr (Or.inl ⟨allowed, ofList front.chars, front.isName, ?_⟩), there⟩
    simp [String.append_assoc]
  · obtain ⟨_, ⟨back, rfl⟩, there⟩ := language_of_isMatch (takes_back proper) (build_back wordy) found
    refine ⟨_, Or.inr (Or.inr ⟨allowed, ofList back.chars, back.isName, ?_⟩), there⟩
    simp [String.append_assoc]

theorem isName_underscore {a b : String} (left : ∀ c ∈ a.toList, isWord c = true)
    (right : ∀ c ∈ b.toList, isWord c = true) : isName (a ++ "_" ++ b) = true := by
  have underscore : isWord '_' = true := by decide
  simp only [isName, toList_append, List.all_append, Bool.and_eq_true, List.all_eq_true]
  refine ⟨by simp, ⟨left, ?_⟩, right⟩
  simpa using underscore

theorem not_suits_of_unnamed (wordy : ∀ c ∈ proper.toList, isWord c = true)
    (none : Unnamed s names proper) (member : name ∈ names.map (·.1)) : ¬Suits s proper name := by
  rintro (rfl | ⟨allowed, front, named, rfl⟩ | ⟨allowed, back, named, rfl⟩)
  · have := Table.lookup_isSome_iff.mpr member
    rw [none.absent] at this
    simp at this
  · obtain ⟨front, rfl⟩ := Design.exists_identifier named
    exact not_findsNone (takes_front proper) rfl (build_front wordy) member ⟨front, by simp⟩
      (isName_underscore (by simpa using front.wordy) wordy) (none.front allowed)
  · obtain ⟨back, rfl⟩ := Design.exists_identifier named
    exact not_findsNone (takes_back proper) rfl (build_back wordy) member ⟨back, by simp⟩
      (isName_underscore wordy (by simpa using back.wordy)) (none.back allowed)

/-- The search gives nothing exactly if no name suits the port. -/
theorem unnamed_iff (wordy : ∀ c ∈ proper.toList, isWord c = true) (done : findName? s names port proper = .ok found) :
    Unnamed s names proper ↔ ∀ name ∈ names.map (·.1), ¬Suits s proper name := by
  refine ⟨fun none name member => not_suits_of_unnamed wordy none member, fun unsuited => ?_⟩
  cases found with
  | none => exact findName?_eq_none.mp done
  | some found =>
    obtain ⟨name, suits, there⟩ := suits_of_findName? wordy done
    exact absurd suits (unsuited name (Table.lookup_isSome_iff.mp (by simp [there])))

theorem mem_of_word {lines : List String} (named : ∀ line ∈ lines, isName line = true)
    (before after : List Char) {seg : List Char} (whole : (join "\n" lines).toList = before ++ (seg ++ after))
    (nonempty : seg ≠ []) (wordy : ∀ c ∈ seg, isWord c = true)
    (behind : ∀ c, before.getLast? = some c → isWord c = false)
    (stops : Stops isWord after) : ofList seg ∈ lines := by
  induction lines generalizing before with
  | nil => simp [Text.join, nonempty] at whole
  | cons line lines ih =>
    obtain ⟨identifier, rfl⟩ := Design.exists_identifier (named line mem_cons_self)
    obtain ⟨rest, split, ends, later⟩ : ∃ rest, (join "\n" (ofList identifier.chars :: lines)).toList =
        identifier.chars ++ rest ∧ (Stops isWord rest) ∧
          ∀ a b, rest = a ++ b → a ≠ [] → ∃ a', a = '\n' :: a' ∧ (join "\n" lines).toList = a' ++ b := by
      cases lines with
      | nil => exact ⟨[], by simp [Text.join], by simp, fun a b none some => absurd none (by simp [some])⟩
      | cons next lines =>
        refine ⟨'\n' :: (Text.join "\n" (next :: lines)).toList, by simp [Text.join, String.intercalate_cons_cons], ?_, ?_⟩
        · rintro c ⟨⟩
          decide
        · intro a b cut some
          obtain ⟨c, a', rfl⟩ := exists_cons_of_ne_nil some
          obtain ⟨rfl, same⟩ := cons.inj cut
          exact ⟨a', rfl, same⟩
    rw [split] at whole
    rcases append_eq_append_iff.mp whole with ⟨a, rfl, cut⟩ | ⟨a, cut, same⟩
    · by_cases here : a = []
      · -- at the end of the line no word begins
        rw [here, nil_append] at cut
        obtain ⟨c, cs, rfl⟩ := exists_cons_of_ne_nil nonempty
        exact absurd (ends c (by rw [cut]; rfl)) (by simp [wordy c mem_cons_self])
      · obtain ⟨a, rfl, inside⟩ := later a _ cut here
        refine mem_cons_of_mem _ (ih (fun line member => named line (mem_cons_of_mem _ member)) _ inside ?_)
        exact fun c last => behind c (by simp [getLast?_cons, last])
    · have first : before = [] := by
        by_contra some
        have last := behind _ (getLast?_eq_some_getLast some)
        rw [identifier.wordy _ (by rw [cut]; exact mem_append_left _ (getLast_mem some))] at last
        exact Bool.noConfusion last
      rw [first, nil_append] at cut
      obtain ⟨rfl, -⟩ := cut_unique same wordy stops (cut ▸ identifier.wordy) ends
      exact cut ▸ mem_cons_self

theorem key_of_match {names : Names} (named : ∀ name ∈ names.map (·.1), isName name = true) {body : Node}
    {L : List Char → Prop} (takes : Takes { multiline := true } body L)
    (words : ∀ cs, L cs → isName (ofList cs) = true) {m : Match}
    (found : m ∈ (wholeWords body).matches_ (nameLines names)) : m.group 1 ∈ names.map (·.1) := by
  obtain ⟨pos, b, here⟩ := exists_matchAt_of_mem found
  obtain ⟨seg, tail, split, taken, group, opens, closes⟩ := group_of_wholeWords takes here
  obtain ⟨identifier, same⟩ := Design.exists_identifier (words seg taken)
  obtain rfl := ofList_injective same
  obtain ⟨c, cs, first⟩ := exists_cons_of_ne_nil identifier.nonempty
  rw [group]
  refine mem_of_word named ((nameLines names).toList.take pos) tail ?_ identifier.nonempty identifier.wordy ?_ ((wordEdge_behind_iff split identifier.nonempty identifier.wordy).mp closes)
  · rw [← split]
    exact (take_append_drop pos _).symm
  · intro d last
    have letter : (nameLines names).toList.toArray[pos]? = some c := by
      rw [head?_of_textFrom split, first]
      rfl
    have inside : pos < (nameLines names).toList.length := by
      simpa using (Array.getElem?_eq_some_iff.mp letter).1
    have start : pos ≠ 0 := by
      rintro rfl
      simp at last
    refine (wordEdge_before_iff letter (identifier.wordy c (by simp [first]))).mp opens d ?_ start
    rw [getLast?_take, if_neg start, getElem?_eq_getElem (by omega), some_or] at last
    rw [getElem?_toArray, getElem?_eq_getElem (by omega), last]

theorem bestCandidate_total {r : Regex} (plain : r.slots ≤ 2) (known : ∀ m ∈ ms, m.group 1 ∈ names.map (·.1))
    (checks : ∀ d ∈ names.map (·.2), ∃ checked, checkConnection port d.toEntry = .ok checked) :
    ∃ found, bestCandidate port names r ms = .ok found := by
  induction ms with
  | nil => exact ⟨none, rfl⟩
  | cons m ms ih =>
    obtain ⟨d, there⟩ := isSome_iff_exists.mp (Table.lookup_isSome_iff.mpr (known m mem_cons_self))
    obtain ⟨checked, check⟩ := checks d (mem_map.mpr ⟨_, Table.mem_of_lookup there, rfl⟩)
    obtain ⟨better, rest⟩ := ih fun m' later => known m' (mem_cons_of_mem m later)
    simp only [bestCandidate, if_pos plain, there, check, rest, bind, Except.bind]
    split
    · exact ⟨_, rfl⟩
    · cases better <;> exact ⟨_, rfl⟩

/-- The search among identifiers ends without a fault if the names it may find can be checked. -/
theorem findName?_total (wordy : ∀ c ∈ proper.toList, isWord c = true)
    (named : ∀ name ∈ names.map (·.1), isName name = true)
    (checks : ∀ d ∈ names.map (·.2), ∃ checked, checkConnection port d.toEntry = .ok checked) :
    ∃ found, findName? s names port proper = .ok found := by
  have extended {body : Node} {L : List Char → Prop} (takes : Takes { multiline := true } body L)
      (words : ∀ cs, L cs → isName (ofList cs) = true)
      (built : build { multiline := true } (edge ++ captured body ++ edge) = .ok (wholeWords body)) :
      ∃ found, extended? port names (edge ++ captured body ++ edge) = .ok found := by
    rw [extended?, orFault_eq_ok.mpr built]
    refine bestCandidate_total (Nat.le_refl 2) (fun m member => ?_) checks
    exact key_of_match named takes words (mem_mergeSort.mp member)
  have frontNamed (cs : List Char) (taken : ∃ front : Identifier, cs = front.chars ++ '_' :: proper.toList) :
      isName (ofList cs) = true := by
    obtain ⟨front, rfl⟩ := taken
    simpa [String.append_assoc] using isName_underscore (a := ofList front.chars) (by simpa using front.wordy) wordy
  have backNamed (cs : List Char) (taken : ∃ back : Identifier, cs = proper.toList ++ '_' :: back.chars) :
      isName (ofList cs) = true := by
    obtain ⟨back, rfl⟩ := taken
    simpa [String.append_assoc] using isName_underscore wordy (b := ofList back.chars) (by simpa using back.wordy)
  cases lookup : names.lookup proper with
  | some d =>
    obtain ⟨checked, check⟩ := checks d (mem_map.mpr ⟨_, Table.mem_of_lookup lookup, rfl⟩)
    exact ⟨some (d, checked.2), by rw [findName?, lookup]; simp only [check]; rfl⟩
  | none =>
    obtain ⟨front, inFront⟩ := extended (takes_front proper) frontNamed (build_front wordy)
    obtain ⟨back, behind⟩ := extended (takes_back proper) backNamed (build_back wordy)
    rw [findName?_of_absent lookup, inFront, behind]
    cases s.extendsFront <;> cases s.extendsBack <;> cases front <;> exact ⟨_, rfl⟩

end Words

end VhdlWorkbench.Instantiate

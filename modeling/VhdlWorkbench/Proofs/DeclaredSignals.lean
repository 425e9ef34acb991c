import VhdlWorkbench.Proofs.ArchitectureLayout
import VhdlWorkbench.Proofs.ReadableForms
import VhdlWorkbench.Proofs.SignalEntries

/-!
The signals of an architecture, among any other text of its declarative part.
-/

namespace VhdlWorkbench.Design

open String (ofList toList_ofList)
open Pattern Pattern.Node Declaration List Regex

/-- A declaration of signals and the text before it. -/
structure SignalItem where
  before : List Char
  closes : ∀ c, before.getLast? = some c → Text.isWord c = false
  signal : SignalLayout
  /-- No line inside the declaration looks like another one. -/
  quiet : Quiet objectWords false signal.text

/-- The declaration opens a line and has one blank behind its word; `first` tells that the text before it
begins a line. -/
def SignalItem.isRead (first : Bool) (i : SignalItem) : Bool :=
  decide (OpensLine first i.before) && i.signal.afterWord.chars.length == 1

def readItems : Bool → List SignalItem → List SignalItem
  | _, [] => []
  | first, i :: rest => if i.isRead first then i :: readItems false rest else readItems false rest

def itemTexts : List SignalItem → List Char
  | [] => []
  | i :: rest => i.before ++ (i.signal.text ++ ';' :: itemTexts rest)

/-- Between the declarations no line looks like one. -/
def QuietLines : Bool → List SignalItem → List Char → Prop
  | first, [], after => Quiet objectWords first after
  | first, i :: rest, after => Quiet objectWords first i.before ∧ QuietLines false rest after

variable {text : Array Char} {pos : Nat} {first : Bool} {after : List Char}

theorem matchAt_before_unread (i : SignalItem) (unread : i.isRead first = false)
    (here : textFrom text pos = i.before ++ (i.signal.text ++ ';' :: after))
    (edge : LineStart text pos ↔ first = true) (quiet : Quiet objectWords first i.before) {n : Nat}
    (inside : n ≤ i.before.length) : signalRegex.matchAt text (pos + n) false = none := by
  cases found : signalRegex.matchAt text (pos + n) false with
  | none => rfl
  | some m =>
    have opening := opening_of_signal found
    have lead := blank_of_opening here edge quiet i.closes inside opening
    have opens : OpensLine first i.before :=
      ⟨_, (lineStart_iff here edge inside).mp opening.1, lead⟩
    have wide : i.signal.afterWord.chars.length ≠ 1 := by
      intro narrow
      simp [SignalItem.isRead, opens, narrow] at unread
    have there : textFrom text (pos + n) = i.before.drop n ++ (i.signal.text ++ ';' :: after) := by
      rw [textFrom_add, here, drop_append_of_le_length inside]
    rw [matchAt_of_wide i.signal ⟨i.before.drop n, lead⟩ wide there] at found
    exact absurd found (by simp)

theorem matchAt_inside (i : SignalItem) (here : textFrom text pos = i.signal.text ++ ';' :: after) {n : Nat}
    (positive : 0 < n) (inside : n ≤ i.signal.text.length) : signalRegex.matchAt text (pos + n) false = none := by
  cases found : signalRegex.matchAt text (pos + n) false with
  | none => rfl
  | some m =>
    have start (zero : n = 0) : LineStart text pos → false = true := by omega
    exact absurd (opening_of_signal found)
      (not_opening_of_mark here start i.quiet (by decide) (by decide) inside)

theorem not_lineStart_behind {c : Char} (here : textFrom text pos = c :: after) (inline : c ≠ '\n') :
    LineStart text (pos + 1) ↔ false = true := by
  have there : text[pos]? = some c := by
    rw [head?_of_textFrom here, head?_cons]
  simp [LineStart, there, inline]

theorem matchesFrom_item (i : SignalItem) (fuel : Nat)
    (here : textFrom text pos = i.before ++ (i.signal.text ++ ';' :: after))
    (edge : LineStart text pos ↔ first = true) (quiet : Quiet objectWords first i.before) :
    ∃ next, textFrom text next = after ∧ (LineStart text next ↔ false = true) ∧
      if i.isRead first then
        ∃ m stop, SignalMatch i.signal stop m ∧ signalRegex.matchesFrom text (fuel + 1) pos false =
          m :: signalRegex.matchesFrom text fuel next false
      else
        signalRegex.matchesFrom text (fuel + 1) pos false =
          signalRegex.matchesFrom text (fuel + 1) next false := by
  have atSignal := textFrom_append here
  have atMark := textFrom_append atSignal
  refine ⟨pos + i.before.length + i.signal.text.length + 1, textFrom_cons atMark,
    not_lineStart_behind atMark (by decide), ?_⟩
  have letters : 0 < i.signal.text.length := by
    have word := i.signal.keyword.spelled.length_eq
    rw [SignalLayout.text, length_append, word, show "signal".length = 6 from rfl]
    omega
  split
  · next read =>
    obtain ⟨opens, narrow⟩ := Bool.and_eq_true_iff.mp read
    have matched (g : Gap) (p : Nat) (line : LineStart text p)
        (there : textFrom text p = g.chars ++ (i.signal.text ++ ';' :: after)) :
        ∃ m, signalRegex.matchAt text p false = some m ∧
          SignalMatch i.signal (pos + i.before.length + i.signal.text.length) m := by
      rw [← pos_unique (textFrom_append there) atSignal (by simp)]
      exact exists_signalMatch i.signal g (beq_iff_eq.mp narrow) there line
    obtain ⟨m, found, here⟩ := search_opening (r := signalRegex) rfl (fun p m found => opening_of_signal found) here edge quiet
      i.closes (of_decide_eq_true opens) matched
    refine ⟨m, _, here, ?_⟩
    have mark : ∀ n < 1, signalRegex.matchAt text (m.stop + n) false = none := by
      intro n bound
      rw [here.stop, Nat.lt_one_iff.mp bound]
      exact matchAt_inside i atSignal letters (Nat.le_refl _)
    rw [matchesFrom_of_searchFrom found here.moves, matchesFrom_skip rfl mark, here.stop]
  · next unread =>
    have skipped : ∀ n < i.before.length + i.signal.text.length + 1,
        signalRegex.matchAt text (pos + n) false = none := by
      intro n bound
      by_cases before : n ≤ i.before.length
      · exact matchAt_before_unread i (by simpa using unread) here edge quiet before
      · obtain ⟨j, rfl⟩ : ∃ j, n = i.before.length + j := ⟨n - i.before.length, by omega⟩
        rw [← Nat.add_assoc]
        exact matchAt_inside i atSignal (by omega) (by omega)
    rw [matchesFrom_skip rfl skipped, ← Nat.add_assoc, ← Nat.add_assoc]

theorem matchesFrom_items (items : List SignalItem) {fuel : Nat}
    (here : textFrom text pos = itemTexts items ++ after) (edge : LineStart text pos ↔ first = true)
    (quiet : QuietLines first items after) (enough : items.length < fuel) :
    Forall₂ (fun i m => ∃ stop, SignalMatch i.signal stop m) (readItems first items)
      (signalRegex.matchesFrom text fuel pos false) := by
  induction items generalizing pos first fuel with
  | nil =>
    rw [itemTexts, nil_append] at here
    rw [readItems, matchesFrom_eq_nil rfl]
    · exact .nil
    · intro n inside
      cases found : signalRegex.matchAt text (pos + n) false with
      | none => rfl
      | some m =>
        have bound : n ≤ after.length := by rwa [← here, textFrom_length]
        exact absurd (opening_of_signal found) (not_opening_of_end here edge quiet bound)
  | cons i rest ih =>
    obtain ⟨fuel, rfl⟩ : ∃ f, fuel = f + 1 := ⟨fuel - 1, by simp only [length_cons] at enough; omega⟩
    rw [itemTexts, append_assoc, append_assoc, cons_append] at here
    obtain ⟨next, there, inline, step⟩ := matchesFrom_item i fuel here edge quiet.1
    rw [readItems]
    split at step
    · next read =>
      obtain ⟨m, stop, matched, step⟩ := step
      rw [if_pos read, step]
      exact .cons ⟨stop, matched⟩ (ih there inline quiet.2 (by simpa using enough))
    · next unread =>
      rw [if_neg unread, step]
      exact ih there inline quiet.2 (by simp only [length_cons] at enough; omega)

theorem length_le_itemTexts (items : List SignalItem) : items.length ≤ (itemTexts items).length := by
  induction items with
  | nil => exact Nat.le_refl 0
  | cons i rest ih =>
    simp only [itemTexts, length_append, length_cons]
    omega

theorem signals_of_items {items : List SignalItem} {after : List Char} (quiet : QuietLines true items after) :
    ∃ ds, allOfForm lineOptions (signalForm identifierList) (ofList (itemTexts items ++ after)) = .ok ds ∧
      ds.map signalReport = (readItems true items).flatMap (·.signal.entries) := by
  have enough : items.length < 2 * (itemTexts items ++ after).toArray.size + 2 := by
    have := length_le_itemTexts items
    rw [size_toArray, length_append]
    omega
  have begins : LineStart (itemTexts items ++ after).toArray 0 ↔ true = true := ⟨fun _ => rfl, fun _ => Or.inl rfl⟩
  have matched := matchesFrom_items items (textFrom_zero _) begins quiet enough
  obtain ⟨found, read, reports⟩ := mapM_flatten
    (fun i m here => Exists.elim here fun stop here => ofMatch_of_signalMatch here) matched
  refine ⟨found.flatten, ?_, reports⟩
  simp only [allOfForm, matches_, toList_ofList]
  rw [show ofNode lineOptions (signalForm identifierList) = signalRegex from rfl, read]
  rfl

def allRead : Bool → List SignalItem → Bool
  | _, [] => true
  | first, i :: rest => i.isRead first && allRead false rest

theorem length_entries_le (first : Bool) (items : List SignalItem) :
    ((readItems first items).flatMap (·.signal.entries)).length ≤
      (items.flatMap (·.signal.declared)).length := by
  induction items generalizing first with
  | nil => exact Nat.le_refl 0
  | cons i rest ih =>
    have later := ih false
    rw [readItems]
    split
    · simp only [flatMap_cons, length_append, SignalLayout.entries, SignalLayout.declared,
        length_replicate, length_map] at later ⊢
      omega
    · rw [flatMap_cons, length_append]
      omega

/-- The entries are as declared exactly if every declaration is read and declares one name. -/
theorem entries_complete_iff_allRead (items : List SignalItem) :
    (readItems first items).flatMap (·.signal.entries) = items.flatMap (·.signal.declared) ↔
      allRead first items = true ∧ ∀ i ∈ items, i.signal.Faithful := by
  induction items generalizing first with
  | nil => simp [readItems, allRead]
  | cons i rest ih =>
    rw [readItems, allRead, forall_mem_cons]
    split
    · next read =>
      have length : i.signal.entries.length = i.signal.declared.length := by
        simp [SignalLayout.entries, SignalLayout.declared]
      have parts (a b : List (String × List String)) : i.signal.entries ++ a = i.signal.declared ++ b ↔
          i.signal.Faithful ∧ a = b := by
        rw [← SignalLayout.entries_eq_declared_iff]
        exact ⟨fun same => append_inj same length, fun both => by rw [both.1, both.2]⟩
      rw [flatMap_cons, flatMap_cons, parts, ih, read, Bool.true_and]
      exact and_left_comm
    · next unread =>
      -- the names of this declaration are missing, and nothing makes up for them
      have short := length_entries_le false rest
      constructor
      · intro complete
        have length := congrArg length complete
        rw [flatMap_cons, length_append] at length
        simp only [SignalLayout.declared, length_map, NameList.names, length_cons] at length short
        omega
      · rintro ⟨read, -⟩
        exact absurd (Bool.and_eq_true_iff.mp read).1 unread

/-- A declarative part with the declarations of its signals. -/
structure SignalPart where
  items : List SignalItem
  after : List Char
  quiet : QuietLines true items after
  part : PartText
  written : part.chars = itemTexts items ++ after
  plain : ∀ c ∈ part.chars, c ∉ foreignLetters

theorem architecture_of_layout (h : ArchitectureHead) (p : SignalPart) (word : Keyword "begin")
    {source unit : String} {before rest : List Char} (named : h.Named unit)
    (preface : Preface ["architecture"] before) (stops : Stops Text.isWord rest)
    (written : Source.withoutComments source =
      ofList (before ++ (h.text ++ (p.part.chars ++ (word.chars ++ rest))))) :
    ∃ a, architecture? source unit = .ok (some a) ∧
      a.signals.map signalReport = (readItems true p.items).flatMap (·.signal.entries) := by
  obtain ⟨m, found, matched⟩ := search_part h p.part word named preface stops
  have decl : m.named "decl" = ofList (itemTexts p.items ++ p.after) := by
    rw [Match.named, matched, Option.getD_some, p.written]
  have plain : ∀ c ∈ (ofList (itemTexts p.items ++ p.after)).toList, c ∉ foreignLetters := by
    rw [toList_ofList, ← p.written]
    exact p.plain
  obtain ⟨signals, read, reports⟩ := signals_of_items p.quiet
  obtain ⟨aliases, readAliases⟩ := aliases_total plain
  obtain ⟨external, readExternal⟩ := externalAliases_total plain
  obtain ⟨constants, readConstants⟩ := constants_total (ofList (itemTexts p.items ++ p.after))
  refine ⟨⟨m.named "name", m.named "arch", signals, aliases ++ external, constants⟩, ?_, reports⟩
  rw [architecture?, build_declarativePart named, written]
  simp only [orFault, Except.mapError, bind, Except.bind, found, decl, read, readAliases, readExternal,
    readConstants]
  rfl

/-- Every signal of an architecture is reported with its own name and a declaration of its own exactly if
every declaration opens a line with one blank behind its word and declares one name. -/
theorem declared_signals_reported_iff (h : ArchitectureHead) (p : SignalPart) (word : Keyword "begin")
    {source unit : String} {before rest : List Char} (named : h.Named unit)
    (preface : Preface ["architecture"] before) (stops : ∀ c, rest.head? = some c → Text.isWord c = false)
    (written : Source.withoutComments source =
      ofList (before ++ (h.text ++ (p.part.chars ++ (word.chars ++ rest))))) :
    ∃ a, architecture? source unit = .ok (some a) ∧
      a.signals.map signalReport = (readItems true p.items).flatMap (·.signal.entries) ∧
      (a.signals.map signalReport = p.items.flatMap (·.signal.declared) ↔
        allRead true p.items = true ∧ ∀ i ∈ p.items, i.signal.Faithful) := by
  obtain ⟨a, found, reports⟩ := architecture_of_layout h p word named preface stops written
  exact ⟨a, found, reports, by rw [reports, entries_complete_iff_allRead]⟩

def loneSignal : SignalItem where
  before := ['\n']
  closes := by rintro c ⟨⟩; decide
  signal := bitSignals ⟨⟨"c".toList, by decide, by decide⟩, oneSpace.toGap, []⟩
  quiet := by decide

def twoSignals : SignalItem where
  before := ['\n']
  closes := by rintro c ⟨⟩; decide
  signal := bitPair
  quiet := by decide

def samplePart : SignalPart where
  items := [loneSignal, twoSignals]
  after := ['\n']
  quiet := ⟨by decide, by decide, show Quiet objectWords false ['\n'] by decide⟩
  part :=
    { chars := "\nsignal c : bit;\nsignal a, b : bit;\n".toList
      nonempty := by decide
      closes := by rintro c ⟨⟩; decide
      noBegin := by decide }
  written := by decide
  plain := by decide

theorem declared_signals_reported_iff_sample :
    sampleHead.Named anyName ∧ Preface ["architecture"] [] ∧
      ∃ a, architecture? "architecture rtl of e is\nsignal c : bit;\nsignal a, b : bit;\nbegin\n" anyName =
          .ok (some a) ∧
        a.signals.map signalReport = [("c", ["c"]), ("b", ["b"]), ("b", ["b"])] ∧
        a.signals.map signalReport ≠ [("c", ["c"]), ("a", ["a"]), ("b", ["b"])] := by
  have named : sampleHead.Named anyName := Or.inl rfl
  obtain ⟨a, found, reports, complete⟩ :=
    declared_signals_reported_iff sampleHead samplePart ⟨"begin".toList, by decide⟩ named preface_nil
      (show ∀ c, ['\n'].head? = some c → _ by rintro c ⟨⟩; decide) (Source.withoutComments_plain (by decide))
  refine ⟨named, preface_nil, a, found, reports, fun same => ?_⟩
  have faithful := (complete.mp same).2 twoSignals (by simp [samplePart])
  exact absurd faithful (by decide)

def pairPart : SignalPart where
  items := [twoSignals]
  after := ['\n']
  quiet := ⟨by decide, show Quiet objectWords false ['\n'] by decide⟩
  part :=
    { chars := "\nsignal a, b : bit;\n".toList
      nonempty := by decide
      closes := by rintro c ⟨⟩; decide
      noBegin := by decide }
  written := by decide
  plain := by decide

/-- A list of two signals gives two entries for the second. -/
theorem first_signal_of_list_not_reported :
    ∃ a, architecture? "architecture rtl of e is\nsignal a, b : bit;\nbegin\nend rtl;\n" anyName = .ok (some a) ∧
      a.signals.map signalReport = [("b", ["b"]), ("b", ["b"])] :=
  architecture_of_layout sampleHead pairPart ⟨"begin".toList, by decide⟩ (Or.inl rfl) preface_nil
    (show ∀ c, "\nend rtl;\n".toList.head? = some c → _ by rintro c ⟨⟩; decide)
    (Source.withoutComments_plain (by decide))

end VhdlWorkbench.Design

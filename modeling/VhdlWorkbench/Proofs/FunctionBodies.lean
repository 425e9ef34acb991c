import VhdlWorkbench.Proofs.DeclaredSignals

/-!
Signals and functions in one declarative part: the signals before the first body are reported.
-/

namespace VhdlWorkbench.Design

open Pattern Pattern.Node Declaration List Text

/-- The body of a function, cut at its word `begin`. -/
structure FunctionBody where
  head : List Char
  word : Keyword "begin"
  body : List Char
  stops : ∃ c, body.head? = some c ∧ isWord c = false

inductive PartItem where
  | signal (item : SignalItem)
  | function (body : FunctionBody)

namespace PartItem

def signal? : PartItem → Option SignalItem
  | .signal item => some item
  | .function _ => none

def isSignal (i : PartItem) : Bool :=
  i.signal?.isSome

def text : PartItem → List Char
  | .signal i => i.before ++ (i.signal.text ++ [';'])
  | .function f => f.head ++ (f.word.chars ++ f.body)

end PartItem

/-- All signals that are declared among the items. -/
def signalsOf (items : List PartItem) : List SignalItem :=
  items.filterMap PartItem.signal?

/-- The signals that are declared before the first function. -/
def leadingSignals (items : List PartItem) : List SignalItem :=
  signalsOf (items.takeWhile PartItem.isSignal)

/-- What stands between those signals and the first word `begin`; `after` is the text behind the items. -/
def beforeBegin (after : List Char) : List PartItem → List Char
  | [] => after
  | .signal _ :: rest => beforeBegin after rest
  | .function f :: _ => f.head

theorem leadingSignals_signal (i : SignalItem) (items : List PartItem) :
    leadingSignals (.signal i :: items) = i :: leadingSignals items :=
  rfl

/-- The items are cut at the first word `begin`. -/
theorem exists_begin (items : List PartItem) (word : Keyword "begin") {after rest : List Char}
    (stops : Stops isWord rest) :
    ∃ (first : Keyword "begin") (behind : List Char),
      items.flatMap PartItem.text ++ (after ++ (word.chars ++ rest)) =
        itemTexts (leadingSignals items) ++ (beforeBegin after items ++ (first.chars ++ behind)) ∧
      Stops isWord behind := by
  induction items with
  | nil => exact ⟨word, rest, rfl, stops⟩
  | cons item items ih =>
    cases item with
    | signal i =>
      obtain ⟨first, behind, split, ends⟩ := ih
      refine ⟨first, behind, ?_, ends⟩
      rw [leadingSignals_signal, itemTexts, beforeBegin, flatMap_cons, PartItem.text]
      simp only [append_assoc, cons_append, nil_append, split]
    | function f =>
      refine ⟨f.word, f.body ++ (items.flatMap PartItem.text ++ (after ++ (word.chars ++ rest))), ?_, ?_⟩
      · rw [flatMap_cons, PartItem.text]
        simp only [append_assoc]
        rfl
      · obtain ⟨c, head, mark⟩ := f.stops
        rw [Stops, head?_append, head]
        rintro d ⟨⟩
        exact mark

def SignalItem.name (i : SignalItem) : String :=
  String.ofList i.signal.listed.first.chars

theorem names_of_read {first : Bool} {items : List SignalItem} (read : allRead first items = true)
    (single : ∀ i ∈ items, i.signal.listed.others = []) :
    ((readItems first items).flatMap (·.signal.entries)).map Prod.fst = items.map SignalItem.name := by
  induction items generalizing first with
  | nil => rfl
  | cons i rest ih =>
    obtain ⟨here, later⟩ := Bool.and_eq_true_iff.mp read
    rw [forall_mem_cons] at single
    have own : i.signal.entries.map Prod.fst = [i.name] := by
      simp [SignalLayout.entries, SignalLayout.entry, SignalItem.name, NameList.last, NameList.names, single.1]
    rw [readItems, if_pos here, flatMap_cons, map_append, own, ih later single.2]
    rfl

theorem signalsOf_split (items : List PartItem) :
    signalsOf items = leadingSignals items ++ signalsOf (items.dropWhile PartItem.isSignal) := by
  rw [leadingSignals, signalsOf, signalsOf, signalsOf, ← filterMap_append, takeWhile_append_dropWhile]

/-- The leading signals have the names of all exactly if no signal stands behind a function. -/
theorem leading_names_iff (items : List PartItem) :
    (leadingSignals items).map SignalItem.name = (signalsOf items).map SignalItem.name ↔
      ∀ i ∈ items.dropWhile PartItem.isSignal, i.isSignal = false := by
  rw [signalsOf_split, map_append, eq_comm, append_right_eq_self, map_eq_nil_iff, signalsOf,
    filterMap_eq_nil_iff]
  simp [PartItem.isSignal]

/-- A declarative part of signals and functions; what is read of it is `front`. -/
structure MixedPart where
  items : List PartItem
  after : List Char
  front : SignalPart
  leading : front.items = leadingSignals items
  ends : front.after = beforeBegin after items

/-- In a declarative part of functions and of signals, each with one name, at the start of a line and one blank
behind its word, the signals before the first function are reported; these are all of them exactly if no signal
stands behind a function. -/
theorem leading_signals_reported (h : ArchitectureHead) (p : MixedPart) (word : Keyword "begin")
    {source unit : String} {before rest : List Char} (named : h.Named unit)
    (preface : Preface ["architecture"] before) (stops : ∀ c, rest.head? = some c → isWord c = false)
    (single : ∀ i ∈ signalsOf p.items, i.signal.listed.others = [])
    (read : allRead true (leadingSignals p.items) = true)
    (written : Source.withoutComments source =
      String.ofList (before ++ (h.text ++ (p.items.flatMap PartItem.text ++ (p.after ++ (word.chars ++ rest)))))) :
    ∃ a, architecture? source unit = .ok (some a) ∧
      a.signals.map (·.name) = (leadingSignals p.items).map SignalItem.name ∧
      (a.signals.map (·.name) = (signalsOf p.items).map SignalItem.name ↔
        ∀ i ∈ p.items.dropWhile PartItem.isSignal, i.isSignal = false) := by
  obtain ⟨first, behind, split, ends⟩ := @exists_begin p.items word p.after _ stops
  rw [split, ← p.leading, ← p.ends, ← append_assoc (itemTexts _), ← p.front.written] at written
  obtain ⟨a, found, reports⟩ := architecture_of_layout h p.front first named preface ends written
  have names : a.signals.map (·.name) = (leadingSignals p.items).map SignalItem.name := by
    rw [← names_of_read read fun i member => single i (by rw [signalsOf_split]; exact mem_append_left _ member),
      ← p.leading, ← reports, map_map]
    rfl
  exact ⟨a, found, names, by rw [names, leading_names_iff]⟩

theorem printed_begin : Spells "begin" "begin".toList := by decide

def identityFunction : FunctionBody where
  head := "\nfunction f(x : t) return t is ".toList
  word := ⟨"begin".toList, printed_begin⟩
  body := " return x; end;".toList
  stops := ⟨' ', by decide⟩

def mixedFront : SignalPart where
  items := [loneSignal]
  after := identityFunction.head
  quiet := ⟨by decide, show Quiet objectWords false identityFunction.head by decide⟩
  part :=
    { chars := "\nsignal c : bit;\nfunction f(x : t) return t is ".toList
      nonempty := by decide
      closes := by rintro c ⟨⟩; decide
      noBegin := by decide }
  written := by decide
  plain := by decide

def mixedPart : MixedPart where
  items := [.signal loneSignal, .function identityFunction]
  after := ['\n']
  front := mixedFront
  leading := rfl
  ends := rfl

theorem leading_signals_reported_function_last :
    sampleHead.Named anyName ∧ Preface ["architecture"] [] ∧
      (∀ i ∈ signalsOf mixedPart.items, i.signal.listed.others = []) ∧
      allRead true (leadingSignals mixedPart.items) = true ∧
      ∃ a, architecture?
          "architecture rtl of e is\nsignal c : bit;\nfunction f(x : t) return t is begin return x; end;\nbegin\n"
          anyName = .ok (some a) ∧
        a.signals.map (·.name) = ["c"] ∧ (a.signals.map (·.name) = ["c"] ↔
          ∀ i ∈ mixedPart.items.dropWhile PartItem.isSignal, i.isSignal = false) := by
  have named : sampleHead.Named anyName := Or.inl rfl
  have single : ∀ i ∈ signalsOf mixedPart.items, i.signal.listed.others = [] := by
    rintro i (_ | ⟨_, ⟨⟩⟩)
    rfl
  exact ⟨named, preface_nil, single, by decide, leading_signals_reported sampleHead mixedPart
    ⟨"begin".toList, by decide⟩ named preface_nil (show ∀ c, ['\n'].head? = some c → _ by rintro c ⟨⟩; decide) single
    (by decide) (Source.withoutComments_plain (by decide))⟩

/-- A signal behind a function is not reported. -/
theorem signal_behind_function_not_reported :
    (architecture? ("architecture rtl of e is\nsignal c : bit;\nfunction f(x : t) return t is begin return x; " ++
        "end f;\nsignal d : bit;\nbegin\nend rtl;") anyName).toOption.map (Option.map fun a => a.signals.map (·.name)) =
      some (some ["c"]) := by
  rw [← String.ofList_append, architecture?, Source.withoutComments, String.toList_ofList]
  simp only [Regex.search?, String.toList_ofList]
  decide +kernel

end VhdlWorkbench.Design

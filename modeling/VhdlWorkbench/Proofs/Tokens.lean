import VhdlWorkbench.Proofs.Characters
import VhdlWorkbench.Proofs.Scan

/-!
The tokens of a source and the blanks between them, and what patterns that ignore case make of them.
-/

namespace VhdlWorkbench.Design

open Pattern Pattern.Node List String Text Declaration

variable {c : Char} {more : List Char}

/-- Blanks of any kind and number. -/
structure Gap where
  chars : List Char
  blank : ∀ c ∈ chars, isBlank c = true

/-- At least one blank. -/
structure Space extends Gap where
  nonempty : chars ≠ []

/-- The characters of an identifier. -/
structure Identifier where
  chars : List Char
  nonempty : chars ≠ []
  wordy : ∀ c ∈ chars, isWord c = true

def isName (s : String) : Bool :=
  !s.isEmpty && s.toList.all isWord

/-- A word of the language in letters of either case. -/
structure Keyword (word : String) where
  chars : List Char
  spelled : Spells word chars

def oneSpace : Space where
  chars := [' ']
  blank := by decide
  nonempty := by decide

def noGap : Gap where
  chars := []
  blank := by decide

def newLine : Gap where
  chars := ['\n']
  blank := by decide

theorem Gap.not_mem (g : Gap) (mark : isBlank c = false) : c ∉ g.chars := by
  intro member
  rw [g.blank c member] at mark
  exact Bool.noConfusion mark

theorem Gap.wordless_head (g : Gap) {rest : List Char} (stops : Stops isWord rest) :
    Stops isWord (g.chars ++ rest) := by
  intro c head
  cases blanks : g.chars with
  | nil => exact stops c (by simpa [blanks] using head)
  | cons d ds =>
    obtain rfl : d = c := by simpa [blanks] using head
    exact isWord_of_isBlank (g.blank d (by simp [blanks]))

theorem Gap.ends_head (g : Gap) {rest : List Char} (stops : ∀ c, rest.head? = some c → endsWord c = true) :
    ∀ c, (g.chars ++ rest).head? = some c → endsWord c = true := by
  intro c head
  cases blanks : g.chars with
  | nil => exact stops c (by simpa [blanks] using head)
  | cons d rest =>
    obtain rfl : d = c := by simpa [blanks] using head
    simp [endsWord, g.blank d (by simp [blanks])]

theorem Space.wordless_head (g : Space) (rest : List Char) :
    Stops isWord (g.chars ++ rest) := by
  intro c head
  rw [head?_append_of_ne_nil _ g.nonempty] at head
  exact isWord_of_isBlank (g.blank c (mem_of_head? head))

theorem Identifier.not_mem (name : Identifier) (mark : isWord c = false) : c ∉ name.chars := by
  intro member
  rw [name.wordy c member] at mark
  exact Bool.noConfusion mark

theorem Identifier.solid (name : Identifier) : ∀ c ∈ name.chars, isBlank c = false := fun c member =>
  isBlank_of_isWord (name.wordy c member)

theorem Identifier.isName (name : Identifier) : isName (ofList name.chars) = true := by
  simpa [Design.isName, name.nonempty] using name.wordy

theorem nameOrAny_identifier (name : Identifier) :
    nameOrAny (ofList name.chars) = .pasted (ofList name.chars) := by
  have word : ofList name.chars ≠ anyName := by
    intro same
    have slash : '\\' ∈ name.chars := by
      rw [← toList_ofList (l := name.chars), same]
      decide
    exact name.not_mem (by decide) slash
  simp [nameOrAny, word]

theorem build_of_wordy {o : Options} {node : Node} {word : String} (texts : node.pastedTexts = [word])
    (wordy : ∀ c ∈ word.toList, isWord c = true) : Regex.build o node = .ok (Regex.ofNode o node) := by
  rw [Regex.build, texts, if_pos]
  simpa using wordy

theorem exists_identifier {s : String} (named : isName s = true) :
    ∃ name : Identifier, s = ofList name.chars := by
  obtain ⟨nonempty, wordy⟩ := Bool.and_eq_true_iff.mp named
  refine ⟨⟨s.toList, ?_, all_eq_true.mp wordy⟩, (ofList_toList).symm⟩
  simpa using nonempty

theorem Identifier.blankless_head (name : Identifier) (rest : List Char) :
    Stops isBlank (name.chars ++ rest) := by
  intro c head
  rw [head?_append_of_ne_nil _ name.nonempty] at head
  exact isBlank_of_isWord (name.wordy c (mem_of_head? head))

theorem Identifier.head_ne (name : Identifier) (g : Gap) (rest : List Char)
    (solid : isBlank c = false) (mark : isWord c = false) : (g.chars ++ (name.chars ++ rest)).head? ≠ some c := by
  intro head
  cases blanks : g.chars with
  | nil =>
    rw [blanks, nil_append, head?_append_of_ne_nil _ name.nonempty] at head
    exact name.not_mem mark (mem_of_head? head)
  | cons b bs =>
    rw [blanks] at head
    obtain rfl := Option.some.inj head
    exact g.not_mem solid (by simp [blanks])

namespace Keyword

variable {word : String}

def identifier (w : Keyword word) (lower : Lower word) (letters : word ≠ "") : Identifier where
  chars := w.chars
  nonempty := by
    intro empty
    have length := w.spelled.length_eq
    rw [empty, length_nil] at length
    exact letters (length_eq_zero_iff.mp length.symm)
  wordy := fun _ member => w.spelled.wordy lower member

end Keyword

variable {text : Array Char} {o : Options} {t r : Thread} {k : Continuation} {rest : List Char}

theorem exec_gap (g : Gap) {lo : Nat} [Full o] (here : textFrom text t.pos = g.chars ++ rest)
    (stops : Stops isBlank rest) (enough : lo ≤ g.chars.length)
    (next : k { t with pos := t.pos + g.chars.length } = some r) :
    exec text (.run (.category false .space) lo none .greedy) o t k = some r := by
  refine exec_run_of_segment here ?_ ?_ enough next
  · intro c member
    rw [accepts_space]
    exact g.blank c member
  · intro c head
    rw [accepts_space]
    exact stops c head

theorem exec_keyword {word : String} (w : Keyword word) (lower : Lower word)
    [Folds o] (here : textFrom text t.pos = w.chars ++ rest)
    (next : k { t with pos := t.pos + w.chars.length } = some r) : exec text (lit word) o t k = some r :=
  exec_lit_of_forall₂ here (w.spelled.forall₂ lower) next

theorem exec_mark {word : String} (mark : word.toList = [c]) [Folds o]
    (here : textFrom text t.pos = c :: rest)
    (next : k { t with pos := t.pos + 1 } = some r) : exec text (lit word) o t k = some r := by
  refine exec_lit_of_forall₂ (show _ = [c] ++ rest from here) ?_ next
  rw [mark]
  exact .cons (charAccepts_of_plainCode rfl) .nil

/-- A mark is not found in characters without it. -/
theorem exec_mark_of_absent {word : String} (mark : word.toList = [c]) (low : c.toNat < 65)
    [Folds o] {pos i : Nat} {cs : List Char} (absent : c ∉ cs)
    (here : textFrom text pos = cs ++ rest) (inside : i < cs.length) (place : t.pos = pos + i) :
    exec text (lit word) o t k = none := by
  have there : textFrom text t.pos = cs.drop i ++ rest := by
    rw [place, textFrom_add, here, drop_append_of_le_length (Nat.le_of_lt inside)]
  rw [drop_eq_getElem_cons inside] at there
  refine exec_lit_of_head there (by rw [mark]; rfl) ?_
  rw [Bool.eq_false_iff, ne_eq, charAccepts_mark low]
  rintro same
  exact absent (same ▸ getElem_mem inside)

theorem exec_identifier (name : Identifier) [Full o] (here : textFrom text t.pos = name.chars ++ rest)
    (stops : Stops isWord rest)
    (next : k { t with pos := t.pos + name.chars.length } = some r) : exec text identifier o t k = some r := by
  refine exec_run_of_segment here ?_ ?_ (length_pos_iff.mpr name.nonempty) next
  · intro c member
    rw [accepts_word]
    exact name.wordy c member
  · intro c head
    rw [accepts_word]
    exact stops c head

theorem exec_edge (name : Identifier) [Full o] {pos : Nat}
    (here : textFrom text pos = name.chars ++ rest) (stops : Stops isWord rest)
    (place : t.pos = pos + name.chars.length) : exec text edge o t k = k t := by
  rw [edge, exec_anchor_of_holds]
  rw [place]
  exact (wordEdge_behind_iff here name.nonempty name.wordy).mpr stops

theorem exec_lit_of_keyword {word other : String} {p q : Char} (w : Keyword word) (lower : Lower word)
    [Folds o]
    (first : word.toList.head? = some q) (first' : other.toList.head? = some p)
    (low : plainCode p < 128) (apart : q.toNat ≠ plainCode p)
    (here : textFrom text t.pos = w.chars ++ rest) : exec text (lit other) o t k = none := by
  have spelled : w.chars.map Char.toLower = word.toList := w.spelled
  obtain ⟨c, cs, split⟩ : ∃ c cs, w.chars = c :: cs := by
    cases letters : w.chars with
    | nil => simp [← spelled, letters] at first
    | cons c cs => exact ⟨c, cs, rfl⟩
  obtain rfl : c.toLower = q := by simpa [← spelled, split] using first
  have small := (lower c.toLower (w.spelled.toLower_mem (by simp [split]))).2.1
  rw [split] at here
  refine exec_lit_of_head here first' ?_
  rw [charAccepts_of_toLower low small]
  simpa using apart

/-- The spans behind a list of names: what follows the first name is captured if there is anything. -/
def spansBehindName (slot : Nat) (name : Identifier) (more : List Char) (t : Thread) :
    Array (Option (Nat × Nat)) :=
  if more = [] then t.spans
  else
    t.spans.setIfInBounds slot
      (some (t.pos + name.chars.length, t.pos + name.chars.length + more.length))

theorem spansBehindName_size (slot : Nat) (name : Identifier) (more : List Char) (t : Thread) :
    (spansBehindName slot name more t).size = t.spans.size := by
  unfold spansBehindName
  split <;> simp

theorem exec_listTail (listed : ∀ c ∈ more, isBlank c = true ∨ isWord c = true ∨ c = ',')
    (nonempty : more ≠ []) (here : textFrom text t.pos = more ++ ':' :: rest)
    (next : k { t with pos := t.pos + more.length } = some r) :
    exec text (many1 listChar) lineOptions t k = some r := by
  refine exec_run_of_segment here ?_ ?_ (length_pos_iff.mpr nonempty) next
  · intro c member
    exact (listChar_accepts_iff c).mpr (listed c member)
  · rintro c ⟨⟩
    decide

theorem exec_listTail_of_colon (here : textFrom text t.pos = ':' :: rest) :
    exec text (many1 listChar) lineOptions t k = none := by
  refine exec_run_of_short (show _ = [] ++ _ from here) ?_ Nat.one_pos
  rintro c ⟨⟩
  decide

theorem wordless_head_of_list (stops : Stops isWord more) :
    Stops isWord (more ++ ':' :: rest) := by
  cases more with
  | nil =>
    rintro c ⟨⟩
    decide
  | cons d more => exact stops

theorem exec_identifierList (slot : Nat) (name : Identifier)
    (listed : ∀ c ∈ more, isBlank c = true ∨ isWord c = true ∨ c = ',')
    (stops : Stops isWord more)
    (here : textFrom text t.pos = name.chars ++ (more ++ ':' :: rest))
    (next : k ⟨t.pos + name.chars.length + more.length, spansBehindName slot name more t⟩ = some r) :
    exec text (identifier ++ edge ++ Node.optional (.capture slot none (many1 listChar)))
      lineOptions t k = some r := by
  have apart : Stops isWord (more ++ ':' :: rest) := wordless_head_of_list stops
  have behind := textFrom_append here
  rw [exec_seq, exec_seq]
  refine exec_identifier name here apart ?_
  rw [exec_edge name here apart rfl]
  by_cases empty : more = []
  · simp only [spansBehindName, empty, ↓reduceIte, length_nil, Nat.add_zero] at next
    rw [empty] at behind
    exact exec_optional_of_none (exec_listTail_of_colon behind) next
  · simp only [spansBehindName, empty, ↓reduceIte] at next
    exact exec_optional_of_some (exec_listTail listed empty behind next)

end VhdlWorkbench.Design

import Mathlib.Data.List.TakeWhile
import VhdlWorkbench.Proofs.Tokens

/-!
Words and lines of a source, and which patterns can match on a line.
-/

namespace VhdlWorkbench.Pattern

open List Option

def Reads.identifier {word : String} {w : List Char} (reads : Reads word w) (lower : Lower word)
    (letters : word ≠ "") : Design.Identifier where
  chars := w
  nonempty := by
    rintro rfl
    exact letters (String.length_eq_zero_iff.mp reads.length_eq.symm)
  wordy := reads.wordy lower

end VhdlWorkbench.Pattern

namespace VhdlWorkbench.Design

open Pattern Pattern.Node List String Option Text

variable {w : List Char} {c : Char}

theorem Identifier.unended_of_reads {name : Identifier} (reads : Reads (ofList name.chars) w) :
    w ≠ [] ∧ ∀ c ∈ w, endsWord c = false := by
  refine ⟨?_, reads.unended (by simpa using name.wordy)⟩
  rintro rfl
  exact name.nonempty (length_eq_zero_iff.mp (by simpa using reads.length_eq.symm))

section Passed

variable {text : Array Char} {o : Options} {t t' : Thread}

theorem reaches_gap {lo : Nat} {hi : Option Nat} {greed : Greed} [Full o]
    (reached : Reaches text (.run (.category false .space) lo hi greed) o t t') :
    ∃ g : Gap, textFrom text t.pos = g.chars ++ textFrom text t'.pos ∧ lo ≤ g.chars.length ∧
      t' = { t with pos := t.pos + g.chars.length } := by
  obtain ⟨seg, here, taken, enough, -, moved⟩ := reaches_run reached
  simp only [accepts_space] at taken
  exact ⟨⟨seg, taken⟩, here, enough, moved⟩

theorem reaches_blank [Full o] (reached : Reaches text blank o t t') :
    ∃ b, isBlank b = true ∧ textFrom text t.pos = b :: textFrom text t'.pos ∧
      t' = { t with pos := t.pos + 1 } := by
  obtain ⟨b, there, accepted, rfl⟩ := reached
  rw [accepts_space] at accepted
  exact ⟨b, accepted, textFrom_of_getElem? there, rfl⟩

theorem reaches_identifier [Full o] (reached : Reaches text identifier o t t') :
    ∃ name : Identifier, textFrom text t.pos = name.chars ++ textFrom text t'.pos ∧
      t' = { t with pos := t.pos + name.chars.length } := by
  obtain ⟨seg, here, taken, enough, -, moved⟩ := reaches_run reached
  simp only [accepts_word] at taken
  exact ⟨⟨seg, length_pos_iff.mp enough, taken⟩, here, moved⟩

theorem exists_reads [Folds o] {word : String} {pos : Nat}
    (stands : wordStandsAt text o word.toList pos = true) :
    ∃ w, Reads word w ∧ w.length = word.length ∧ textFrom text pos = w ++ textFrom text (pos + w.length) := by
  obtain ⟨w, tail, here, pairs⟩ := (wordStandsAt_iff _ _).mp stands
  simp only [charAccepts_fold] at pairs
  exact ⟨w, pairs, Reads.length_eq pairs, by rw [textFrom_append here, here]⟩

theorem reaches_word [Folds o] {word : String}
    (reached : Reaches text (lit word) o t t') : ∃ w, Reads word w ∧ textFrom text t.pos = w ++ textFrom text t'.pos ∧
      t' = { t with pos := t.pos + w.length } := by
  obtain ⟨stands, rfl⟩ := reaches_lit reached
  obtain ⟨w, reads, length, here⟩ := exists_reads stands
  rw [length] at here
  exact ⟨w, reads, here, by rw [length]⟩

theorem reaches_cased (cased : o.ignoreCase = false) {word : String} (reached : Reaches text (lit word) o t t') :
    textFrom text t.pos = word.toList ++ textFrom text t'.pos ∧ t' = { t with pos := t.pos + word.length } := by
  obtain ⟨stands, rfl⟩ := reaches_lit reached
  obtain ⟨tail, here⟩ := (wordStandsAt_cased_iff cased).mp stands
  refine ⟨?_, rfl⟩
  rw [here, ← String.length_toList, textFrom_append here]

theorem reaches_pasted [Folds o] {word : String}
    (reached : Reaches text (.pasted word) o t t') :
    ∃ w, Reads word w ∧ textFrom text t.pos = w ++ textFrom text t'.pos ∧
      t' = { t with pos := t.pos + w.length } := by
  obtain ⟨stands, rfl⟩ := reached
  obtain ⟨w, reads, length, here⟩ := exists_reads stands
  rw [length] at here
  exact ⟨w, reads, here, by rw [length]⟩

theorem reaches_mark [Folds o] {word : String}
    (mark : word.toList = [c]) (low : c.toNat < 65) (reached : Reaches text (lit word) o t t') :
    textFrom text t.pos = c :: textFrom text t'.pos ∧ t' = { t with pos := t.pos + 1 } := by
  obtain ⟨d, there, accepted⟩ := accepts_of_reaches_lit reached (by rw [mark, head?_cons])
  obtain rfl := (charAccepts_mark low).mp accepted
  obtain ⟨-, rfl⟩ := reaches_lit reached
  have length : word.length = 1 := by rw [← String.length_toList, mark, List.length_singleton]
  rw [length]
  exact ⟨textFrom_of_getElem? there, rfl⟩

theorem reaches_marks [Folds o] {word : String}
    (low : ∀ c ∈ word.toList, c.toNat < 65) (reached : Reaches text (lit word) o t t') :
    textFrom text t.pos = word.toList ++ textFrom text t'.pos ∧ t' = { t with pos := t.pos + word.toList.length } := by
  obtain ⟨w, reads, here, moved⟩ := reaches_word reached
  have same {ps cs : List Char} (low : ∀ c ∈ ps, c.toNat < 65)
      (pairs : Forall₂ (fun p c => charAccepts { ignoreCase := true } p c = true) ps cs) : cs = ps := by
    induction pairs with
    | nil => rfl
    | cons accepted _ ih =>
      rw [forall_mem_cons] at low
      rw [(charAccepts_mark low.1).mp accepted, ih low.2]
  rw [← same low reads]
  exact ⟨here, moved⟩

theorem reaches_optional {body : Node} (reached : Reaches text (optional body) o t t') :
    t' = t ∨ Reaches text body o t t' := by
  obtain ⟨n, -, most, rounds⟩ := reached
  have few := most 1 rfl
  obtain rfl | rfl : n = 0 ∨ n = 1 := by omega
  · exact Or.inl rounds
  · obtain ⟨m, first, rfl⟩ := rounds
    exact Or.inr first

end Passed

section Run

variable {text : Array Char} {o : Options} {t r : Thread} {k : Continuation} {rest : List Char}

theorem exec_blank {b : Char} [Full o] (here : textFrom text t.pos = b :: rest)
    (isBlank : isBlank b = true) (next : k { t with pos := t.pos + 1 } = some r) : exec text blank o t k = some r := by
  have there := head?_of_textFrom here
  rw [head?_cons] at there
  simp only [blank, exec, there, accepts_space, isBlank, ↓reduceIte, next]

theorem exec_blank_of_solid [Full o] (here : textFrom text t.pos = c :: rest)
    (solid : isBlank c = false) : exec text blank o t k = none := by
  have there := head?_of_textFrom here
  rw [head?_cons] at there
  simp only [blank, exec, there, accepts_space, solid, Bool.false_eq_true, ↓reduceIte]

section

variable {word : String} (reads : Reads word w) (here : textFrom text t.pos = w ++ rest)
  (next : k { t with pos := t.pos + w.length } = some r)
include reads here next

theorem exec_word [Folds o] : exec text (lit word) o t k = some r := by
  refine exec_lit_of_forall₂ here ?_ next
  simp only [charAccepts_fold]
  exact reads

theorem exec_pasted [Folds o] : exec text (.pasted word) o t k = some r := by
  have stands : wordStandsAt text o word.toList t.pos = true := by
    refine wordStandsAt_of_forall₂ here ?_
    simp only [charAccepts_fold]
    exact reads
  rw [reads.length_eq] at next
  simp only [exec, stands, ↓reduceIte, next]

end

theorem exec_nameOrAny (name : Identifier) {unit : String} [Folds o]
    (named : unit = anyName ∨ unit = ofList name.chars) (here : textFrom text t.pos = name.chars ++ rest)
    (stops : Stops isWord rest)
    (next : k { t with pos := t.pos + name.chars.length } = some r) : exec text (nameOrAny unit) o t k = some r := by
  rcases named with rfl | rfl
  · exact exec_identifier name here stops next
  · rw [nameOrAny_identifier]
    exact exec_pasted (reads_self name.chars) here next

theorem exec_maybe_of_stop {s : Single} (stops : Stops (s.accepts o) (textFrom text t.pos))
    (next : k t = some r) : exec text (maybe s) o t k = some r := by
  have none : runLength text o s (min 1 (text.size - t.pos)) t.pos = 0 := by
    rw [Stops, ← head?_of_textFrom rfl] at stops
    cases limit : min 1 (text.size - t.pos) with
    | zero => rfl
    | succ n =>
      unfold runLength
      split
      · rfl
      · next c there => rw [stops c there]; rfl
  simp only [maybe, exec, runSingle, runLengthFrom_eq, getD_some, none, Nat.add_zero, Nat.lt_irrefl,
    ↓reduceIte, Nat.sub_self, longestFirst, next]

theorem exec_maybe_of_taken {s : Single} (here : textFrom text t.pos = c :: rest)
    (accepted : s.accepts o c = true) (next : k { t with pos := t.pos + 1 } = some r) :
    exec text (maybe s) o t k = some r := by
  have there := head?_of_textFrom here
  have room := lt_size_of_textFrom here (cons_ne_nil c rest)
  rw [head?_cons] at there
  have one : runLength text o s (min 1 (text.size - t.pos)) t.pos = 1 := by
    rw [Nat.min_eq_left (by omega), runLength, there]
    simp [accepted, runLength]
  simp only [maybe, exec, runSingle, runLengthFrom_eq, getD_some, one, Nat.zero_add, Nat.not_lt_zero,
    ↓reduceIte, Nat.sub_zero, longestFirst, Nat.add_zero, next]

end Run

def firstWord (cs : List Char) : List Char :=
  (dropBlanks cs).takeWhile isWord

theorem dropBlanks_gap (g : Gap) {rest : List Char} (opens : Stops isBlank rest) :
    dropBlanks (g.chars ++ rest) = rest := by
  rw [dropBlanks, dropWhile_append_of_pos g.blank]
  cases rest with
  | nil => rfl
  | cons c rest => simp [opens c rfl]

theorem firstWord_gap (g : Gap) {word rest : List Char} (wordy : ∀ c ∈ word, isWord c = true)
    (stops : Stops isWord rest)
    (opens : Stops isBlank (word ++ rest)) : firstWord (g.chars ++ (word ++ rest)) = word := by
  rw [firstWord, dropBlanks_gap g opens, takeWhile_append_of_stop wordy stops]

theorem firstWord_identifier (g : Gap) (name : Identifier) {rest : List Char}
    (stops : Stops isWord rest) : firstWord (g.chars ++ (name.chars ++ rest)) = name.chars :=
  firstWord_gap g name.wordy stops (name.blankless_head rest)

theorem firstWord_mark (cs rest : List Char) (blank : isBlank c = false)
    (word : isWord c = false) : firstWord (cs ++ c :: rest) = firstWord cs := by
  unfold firstWord dropBlanks
  rw [dropWhile_append]
  split
  · next empty =>
    rw [isEmpty_iff.mp empty]
    simp [blank, word]
  · rw [takeWhile_append]
    split
    · next whole =>
      rw [( takeWhile_prefix _).eq_of_length whole]
      simp [word]
    · rfl

theorem takeWhile_closed {cs : List Char} (nonempty : cs ≠ [])
    (closes : ∀ c, cs.getLast? = some c → isWord c = false) (rest : List Char) :
    (cs ++ rest).takeWhile isWord = cs.takeWhile isWord := by
  rw [takeWhile_append, if_neg]
  intro whole
  have wordy := closes _ (getLast?_eq_some_getLast nonempty)
  have every : cs.takeWhile isWord = cs := ( takeWhile_prefix _).eq_of_length whole
  rw [takeWhile_eq_self_iff.mp every _ (getLast_mem nonempty)] at wordy
  exact Bool.noConfusion wordy

theorem firstWord_append {cs : List Char} (solid : ∃ c ∈ cs, isBlank c = false)
    (closes : ∀ c, cs.getLast? = some c → isWord c = false) (rest : List Char) :
    firstWord (cs ++ rest) = firstWord cs := by
  unfold firstWord dropBlanks
  have left : cs.dropWhile isBlank ≠ [] := by
    intro empty
    obtain ⟨c, member, solid⟩ := solid
    rw [dropWhile_eq_nil_iff.mp empty c member] at solid
    exact Bool.noConfusion solid
  have last : (cs.dropWhile isBlank).getLast? = cs.getLast? := by
    conv_rhs => rw [← takeWhile_append_dropWhile (p := isBlank) (l := cs)]
    rw [getLast?_append_of_ne_nil _ left]
  rw [dropWhile_append, if_neg (by simpa using left)]
  exact takeWhile_closed left (fun c head => closes c (last ▸ head)) rest

def behindFeeds : List Char → List (List Char)
  | [] => []
  | c :: cs => if c = '\n' then cs :: behindFeeds cs else behindFeeds cs

theorem mem_behindFeeds {cs rest : List Char} : rest ∈ behindFeeds cs ↔ ∃ front, cs = front ++ '\n' :: rest := by
  induction cs with
  | nil => simp [behindFeeds]
  | cons c cs ih =>
    have later : (∃ front, c :: cs = front ++ '\n' :: rest) ↔
        (c = '\n' ∧ cs = rest) ∨ ∃ front, cs = front ++ '\n' :: rest := by
      constructor
      · rintro ⟨front, split⟩
        cases front with
        | nil =>
          obtain ⟨rfl, rfl⟩ := cons.inj split
          exact Or.inl ⟨rfl, rfl⟩
        | cons d front => exact Or.inr ⟨front, (cons.inj split).2⟩
      · rintro (⟨rfl, rfl⟩ | ⟨front, rfl⟩)
        · exact ⟨[], rfl⟩
        · exact ⟨c :: front, rfl⟩
    rw [later, ← ih, behindFeeds]
    split
    · next feed => simp [feed, eq_comm]
    · next other => simp [other]

/-- The rests of a text from the beginnings of its lines on; `first` tells that the text begins a line. -/
def lineTails (first : Bool) (cs : List Char) : List (List Char) :=
  if first then cs :: behindFeeds cs else behindFeeds cs

theorem mem_lineTails {first : Bool} {cs tail : List Char} :
    tail ∈ lineTails first cs ↔ first = true ∧ tail = cs ∨ tail ∈ behindFeeds cs := by
  cases first <;> simp [lineTails]

/-- The last line of a text is blank. -/
def OpensLine (first : Bool) (cs : List Char) : Prop :=
  ∃ tail ∈ lineTails first cs, ∀ c ∈ tail, isBlank c = true

instance (first : Bool) (cs : List Char) : Decidable (OpensLine first cs) :=
  inferInstanceAs (Decidable (∃ tail ∈ lineTails first cs, _))

/-- No line of a text opens with one of the words. -/
def Quiet (words : List String) (first : Bool) (cs : List Char) : Prop :=
  ∀ tail ∈ lineTails first cs, ∀ word ∈ words, ¬Reads word (firstWord tail)

instance (words : List String) (first : Bool) (cs : List Char) : Decidable (Quiet words first cs) :=
  inferInstanceAs (Decidable (∀ tail ∈ lineTails first cs, _))

section Lines

variable {text : Array Char} {pos : Nat} {first : Bool} {cs rest : List Char} {words : List String}

/-- A line begins at a place. -/
def LineStart (text : Array Char) (pos : Nat) : Prop :=
  pos = 0 ∨ text[pos - 1]? = some '\n'

/-- A line that opens with one of the words begins at a place. -/
def Opening (words : List String) (text : Array Char) (pos : Nat) : Prop :=
  LineStart text pos ∧ ∃ word ∈ words, Reads word (firstWord (textFrom text pos))

section Tags

variable {tag last : Node} {o : Options} {t t' : Thread} [Folds o] (lines : o.multiline = true)
  (reads : ∀ u u', Reaches text tag o u u' →
    ∃ word ∈ words, ∃ w, Reads word w ∧ textFrom text u.pos = w ++ textFrom text u'.pos)

include lines reads

/-- A pattern opens a line with its own word. -/
theorem reaches_tag (reached : Reaches text (start ++ gap ++ tag) o t t') :
    LineStart text t.pos ∧ ∃ (g : Gap) (w : List Char), (∃ word ∈ words, Reads word w) ∧
      textFrom text t.pos = g.chars ++ (w ++ textFrom text t'.pos) := by
  obtain ⟨_, ⟨_, ⟨line, rfl⟩, blanks⟩, letters⟩ := reached
  obtain ⟨g, here, -, rfl⟩ := reaches_gap blanks
  obtain ⟨word, member, w, read, there⟩ := reads _ _ letters
  exact ⟨(lineStart_holds_iff lines _).mp line, g, w, ⟨word, member, read⟩, by rw [here, there]⟩

theorem opening_of_tag (lower : ∀ word ∈ words, Lower word ∧ word ≠ "")
    (spaced : ∀ u u', Reaches text last o u u' → ∃ b rest, isBlank b = true ∧ textFrom text u.pos = b :: rest)
    (reached : Reaches text (start ++ gap ++ tag ++ last) o t t') : Opening words text t.pos := by
  obtain ⟨_, toLast, behind⟩ := reached
  obtain ⟨line, g, w, ⟨word, member, read⟩, here⟩ := reaches_tag lines reads toLast
  obtain ⟨b, rest, blank, next⟩ := spaced _ _ behind
  rw [next] at here
  have first : firstWord (g.chars ++ (w ++ b :: rest)) = w := by
    refine firstWord_identifier g (read.identifier (lower word member).1 (lower word member).2) ?_
    rintro c ⟨⟩
    exact isWord_of_isBlank blank
  exact ⟨line, word, member, by rwa [here, first]⟩

end Tags

theorem reads_word {o : Options} [Folds o] (word : String) (t t' : Thread) (reached : Reaches text (lit word) o t t') :
    ∃ word' ∈ [word], ∃ w, Reads word' w ∧ textFrom text t.pos = w ++ textFrom text t'.pos := by
  obtain ⟨w, reads, here, -⟩ := reaches_word reached
  exact ⟨word, mem_cons_self, w, reads, here⟩

theorem blank_behind {o : Options} [Folds o] (t t' : Thread) (reached : Reaches text blank o t t') :
    ∃ b rest, isBlank b = true ∧ textFrom text t.pos = b :: rest := by
  obtain ⟨b, blank, here, -⟩ := reaches_blank reached
  exact ⟨b, _, blank, here⟩

theorem gap_behind {o : Options} [Folds o] (t t' : Thread) (reached : Reaches text gap1 o t t') :
    ∃ b rest, isBlank b = true ∧ textFrom text t.pos = b :: rest := by
  obtain ⟨g, here, enough, -⟩ := reaches_gap reached
  obtain ⟨b, blanks, split⟩ := exists_cons_of_length_pos enough
  rw [split, cons_append] at here
  exact ⟨b, _, g.blank b (by simp [split]), here⟩

theorem reads_of_opening {w : Identifier} {g : Gap} (opening : Opening words text pos)
    (here : textFrom text pos = g.chars ++ (w.chars ++ rest))
    (stops : Stops isWord rest) : ∃ word ∈ words, Reads word w.chars := by
  obtain ⟨-, word, member, reads⟩ := opening
  rw [here, firstWord_identifier g w stops] at reads
  exact ⟨word, member, reads⟩

theorem lineStart_iff_feed {i : Nat} (here : textFrom text pos = cs ++ rest) (positive : 0 < i)
    (inside : i ≤ cs.length) : LineStart text (pos + i) ↔ cs.drop i ∈ behindFeeds cs := by
  have before : text[pos + i - 1]? = cs[i - 1]? := by
    rw [show pos + i - 1 = pos + (i - 1) by omega, getElem?_of_textFrom here,
      getElem?_append_left (by omega)]
  rw [LineStart, before, mem_behindFeeds]
  constructor
  · intro line
    obtain ⟨bound, feed⟩ := List.getElem?_eq_some_iff.mp (line.resolve_left (by omega))
    have split := drop_eq_getElem_cons bound
    rw [feed, show i - 1 + 1 = i by omega] at split
    exact ⟨cs.take (i - 1), by rw [← split, take_append_drop]⟩
  · rintro ⟨front, split⟩
    have length := congrArg List.length split
    simp only [List.length_append, List.length_cons, List.length_drop] at length
    right
    rw [split, getElem?_append_right (by omega), show i - 1 - front.length = 0 by omega]
    rfl

theorem mem_lineTails_of_lineStart {i : Nat} (here : textFrom text pos = cs ++ rest)
    (edge : i = 0 → LineStart text pos → first = true) (inside : i ≤ cs.length)
    (line : LineStart text (pos + i)) : cs.drop i ∈ lineTails first cs := by
  rw [mem_lineTails]
  by_cases start : i = 0
  · subst start
    exact Or.inl ⟨edge rfl line, rfl⟩
  · exact Or.inr ((lineStart_iff_feed here (by omega) inside).mp line)

theorem lineStart_iff {i : Nat} (here : textFrom text pos = cs ++ rest)
    (edge : LineStart text pos ↔ first = true) (inside : i ≤ cs.length) :
    LineStart text (pos + i) ↔ cs.drop i ∈ lineTails first cs := by
  refine ⟨mem_lineTails_of_lineStart here (fun _ => edge.mp) inside, fun member => ?_⟩
  rcases mem_lineTails.mp member with ⟨begins, whole⟩ | behind
  · have length := congrArg List.length whole
    rw [length_drop] at length
    have start : i = 0 ∨ cs.length = 0 := by omega
    obtain rfl : i = 0 := by omega
    exact edge.mpr begins
  · have positive : 0 < i := by
      obtain ⟨front, split⟩ := mem_behindFeeds.mp behind
      have length := congrArg List.length split
      simp only [List.length_append, List.length_cons, List.length_drop] at length
      omega
    exact (lineStart_iff_feed here positive inside).mpr behind

theorem exists_drop_of_mem {tail : List Char} (member : tail ∈ lineTails first cs) :
    ∃ i ≤ cs.length, cs.drop i = tail := by
  rcases mem_lineTails.mp member with ⟨-, rfl⟩ | behind
  · exact ⟨0, Nat.zero_le _, rfl⟩
  · obtain ⟨front, rfl⟩ := mem_behindFeeds.mp behind
    refine ⟨front.length + 1, by simp, ?_⟩
    rw [append_cons, drop_left' (by simp)]

/-- A text that is quiet up to a mark has no line that opens with one of the words. -/
theorem not_opening_of_mark {i : Nat} (here : textFrom text pos = cs ++ c :: rest)
    (edge : i = 0 → LineStart text pos → first = true) (quiet : Quiet words first cs)
    (blank : isBlank c = false) (mark : isWord c = false) (inside : i ≤ cs.length) : ¬Opening words text (pos + i) := by
  rintro ⟨line, word, member, reads⟩
  have tail := mem_lineTails_of_lineStart here edge inside line
  rw [textFrom_add, here, drop_append_of_le_length inside, firstWord_mark _ _ blank mark] at reads
  exact quiet _ tail word member reads

theorem not_opening_of_end {i : Nat} (here : textFrom text pos = cs) (edge : LineStart text pos ↔ first = true)
    (quiet : Quiet words first cs) (inside : i ≤ cs.length) : ¬Opening words text (pos + i) := by
  rintro ⟨line, word, member, reads⟩
  have tail := (lineStart_iff (here.trans (append_nil cs).symm) edge inside).mp line
  rw [textFrom_add, here] at reads
  exact quiet _ tail word member reads

/-- Behind a quiet text a word can open the line only if the last line of the text is blank. -/
theorem blank_of_opening {i : Nat} (here : textFrom text pos = cs ++ rest)
    (edge : LineStart text pos ↔ first = true) (quiet : Quiet words first cs)
    (closes : ∀ c, cs.getLast? = some c → isWord c = false) (inside : i ≤ cs.length)
    (opening : Opening words text (pos + i)) : ∀ c ∈ cs.drop i, isBlank c = true := by
  obtain ⟨line, word, listed, reads⟩ := opening
  have tail := (lineStart_iff here edge inside).mp line
  by_contra mixed
  have solid : ∃ c ∈ cs.drop i, isBlank c = false := by simpa using mixed
  have last : ∀ c, (cs.drop i).getLast? = some c → isWord c = false := by
    intro c last
    rw [getLast?_drop] at last
    split at last
    · simp at last
    · exact closes c last
  rw [textFrom_add, here, drop_append_of_le_length inside, firstWord_append solid last] at reads
  exact quiet _ tail word listed reads

variable {r : Regex} {P : Match → Prop}

/-- A search for a line that opens with a word passes over a quiet text and finds what stands behind it. -/
theorem search_opening (plain : r.opening = none)
    (starts : ∀ p m, r.matchAt text p false = some m → Opening words text p)
    (here : textFrom text pos = cs ++ rest) (edge : LineStart text pos ↔ first = true)
    (quiet : Quiet words first cs) (closes : ∀ c, cs.getLast? = some c → isWord c = false) (opens : OpensLine first cs)
    (matched : ∀ (g : Gap) p, LineStart text p → textFrom text p = g.chars ++ rest →
      ∃ m, r.matchAt text p false = some m ∧ P m) : ∃ m, r.searchFrom text pos false = some m ∧ P m := by
  have behind {i : Nat} (inside : i ≤ cs.length) : textFrom text (pos + i) = cs.drop i ++ rest := by
    rw [textFrom_add, here, drop_append_of_le_length inside]
  obtain ⟨tail, member, blank⟩ := opens
  obtain ⟨n, inside, rfl⟩ := exists_drop_of_mem member
  obtain ⟨last, found, -⟩ := matched ⟨cs.drop n, blank⟩ (pos + n)
    ((lineStart_iff here edge inside).mpr member) (behind inside)
  refine Regex.searchFrom_upTo plain ?_ found
  intro i early m there
  have opening := starts _ m there
  have lead := blank_of_opening here edge quiet closes (by omega) opening
  obtain ⟨m', same, holds⟩ := matched ⟨cs.drop i, lead⟩ (pos + i) opening.1 (behind (by omega))
  obtain rfl := some.inj (there.symm.trans same)
  exact holds

end Lines

/-- A word of the language stands in a text; `inside` tells that the text goes on with a word. -/
def hasWord (word : String) (inside : Bool) : List Char → Bool
  | [] => false
  | c :: cs =>
    (!inside && decide (Reads word ((c :: cs).takeWhile isWord))) || hasWord word (isWord c) cs

theorem hasWord_of_drop {word : String} {inside : Bool} {cs : List Char} {i : Nat} (bound : i < cs.length)
    (starts : (if i = 0 then inside else (cs[i - 1]?).any isWord) = false)
    (reads : Reads word ((cs.drop i).takeWhile isWord)) : hasWord word inside cs = true := by
  induction cs generalizing inside i with
  | nil => simp at bound
  | cons c cs ih =>
    rw [hasWord, Bool.or_eq_true]
    cases i with
    | zero =>
      rw [if_pos rfl] at starts
      left
      simpa [starts] using reads
    | succ i =>
      right
      refine ih (by simpa using bound) ?_ (by simpa using reads)
      cases i with
      | zero => simpa using starts
      | succ i => simpa using starts

theorem reaches_wholeWord {text : Array Char} {o : Options} {t t' : Thread} {word : String}
    [Folds o] (lower : Lower word) (letters : word ≠ "")
    (reached : Reaches text (edge ++ lit word ++ edge) o t t') :
    ∃ name : Identifier, Reads word name.chars ∧ textFrom text t.pos = name.chars ++ textFrom text t'.pos ∧
      (Stops isWord (textFrom text t'.pos)) ∧
      ∀ d, text[t.pos - 1]? = some d → t.pos ≠ 0 → isWord d = false := by
  obtain ⟨_, toEdge, ⟨closed, rfl⟩⟩ := reaches_seq reached
  obtain ⟨t, ⟨opened, rfl⟩, passed⟩ := reaches_seq toEdge
  obtain ⟨w, reads, there, rfl⟩ := reaches_word passed
  let name := reads.identifier lower letters
  obtain ⟨c, cs, split⟩ := exists_cons_of_ne_nil name.nonempty
  have head : text[t.pos]? = some c := by
    rw [head?_of_textFrom there, show w = c :: cs from split]
    rfl
  refine ⟨name, reads, there, (wordEdge_behind_iff there name.nonempty name.wordy).mp closed, ?_⟩
  exact (wordEdge_before_iff head (name.wordy c (by simp [split]))).mp opened

theorem hasWord_of_reaches {text : Array Char} {o : Options} {t t' : Thread} {word : String} {cs rest : List Char}
    {pos i : Nat} {inside : Bool} [Folds o] (lower : Lower word)
    (letters : word ≠ "") (here : textFrom text pos = cs ++ rest)
    (before : inside = true → pos ≠ 0 ∧ ∃ d, text[pos - 1]? = some d ∧ isWord d = true)
    (closes : ∀ c, cs.getLast? = some c → isWord c = false) (bound : i < cs.length) (place : t.pos = pos + i)
    (reached : Reaches text (edge ++ lit word ++ edge) o t t') : hasWord word inside cs = true := by
  obtain ⟨name, reads, there, stops, alone⟩ := reaches_wholeWord lower letters reached
  have tail : textFrom text t.pos = cs.drop i ++ rest := by
    rw [place, textFrom_add, here, drop_append_of_le_length (Nat.le_of_lt bound)]
  have left : cs.drop i ≠ [] := by
    intro empty
    have length := congrArg List.length empty
    rw [length_drop, length_nil] at length
    omega
  have last : ∀ c, (cs.drop i).getLast? = some c → isWord c = false := by
    intro c last
    rw [getLast?_drop, if_neg (by omega)] at last
    exact closes c last
  have word : (cs.drop i).takeWhile isWord = name.chars := by
    rw [← takeWhile_closed left last rest, ← tail, there, takeWhile_append_of_stop name.wordy stops]
  refine hasWord_of_drop bound ?_ (by rwa [word])
  split
  · next start =>
    rw [start, Nat.add_zero] at place
    cases inside with
    | false => rfl
    | true =>
      obtain ⟨positive, d, behind, wordy⟩ := before rfl
      rw [place] at alone
      rw [alone d behind positive] at wordy
      exact absurd wordy Bool.false_ne_true
  · next later =>
    have behind : text[t.pos - 1]? = cs[i - 1]? := by
      rw [place, show pos + i - 1 = pos + (i - 1) by omega, getElem?_of_textFrom here,
        getElem?_append_left (by omega)]
    rw [← behind]
    cases found : text[t.pos - 1]? with
    | none => rfl
    | some d => exact alone d found (by omega)

section

variable {text : Array Char} {o : Options} {t : Thread} {k : Continuation} {word : String} {cs rest : List Char} {pos i : Nat}

theorem exec_word_of_absent [Folds o] (lower : Lower word)
    (letters : word ≠ "") (here : textFrom text pos = cs ++ rest)
    (before : pos ≠ 0 ∧ ∃ d, text[pos - 1]? = some d ∧ isWord d = true)
    (closes : ∀ c, cs.getLast? = some c → isWord c = false) (absent : hasWord word true cs = false)
    (inside : i < cs.length) (place : t.pos = pos + i) : exec text (edge ++ lit word ++ edge) o t k = none := by
  rw [eq_none_iff_forall_not_mem]
  intro r success
  obtain ⟨t', reached, -⟩ := exec_reaches _ _ _ _ _ success
  have found : hasWord word true cs = true :=
    hasWord_of_reaches lower letters here (fun _ => before) closes inside place reached
  rw [absent] at found
  exact absurd found Bool.false_ne_true

theorem exec_wholeWord (w : Keyword word) [Folds o] (lower : Lower word)
    (letters : word ≠ "") (here : textFrom text pos = cs ++ (w.chars ++ rest)) (nonempty : cs ≠ [])
    (closes : ∀ c, cs.getLast? = some c → isWord c = false)
    (stops : Stops isWord rest) (place : t.pos = pos + cs.length) {r : Thread}
    (next : k { t with pos := t.pos + w.chars.length } = some r) :
    exec text (edge ++ lit word ++ edge) o t k = some r := by
  let name := w.identifier lower letters
  obtain ⟨c, ds, split⟩ := exists_cons_of_ne_nil name.nonempty
  have last := getLast?_eq_some_getLast nonempty
  have atWord : textFrom text t.pos = w.chars ++ rest := place ▸ textFrom_append here
  have head : text[t.pos]? = some c := by
    rw [head?_of_textFrom atWord, show w.chars = c :: ds from split]
    rfl
  have opens : Anchor.holds text o .wordEdge t.pos = true := by
    refine (wordEdge_before_iff head (name.wordy c (by simp [split]))).mpr fun d before _ => ?_
    rw [place, (getElem?_last_of_textFrom here last).2] at before
    exact some.inj before ▸ closes _ last
  rw [exec_seq, exec_seq, edge, exec_anchor_of_holds opens]
  refine exec_keyword w lower atWord ?_
  rw [← edge, exec_edge name atWord stops rfl]
  exact next

end

end VhdlWorkbench.Design

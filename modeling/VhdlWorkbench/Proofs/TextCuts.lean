import VhdlWorkbench.Proofs.Words

/-!
Cutting a text at the first place of a kind, told by what follows and by whether a word goes on there.
-/

namespace VhdlWorkbench.Design

open Pattern Pattern.Node List Text

variable {c : Char} {letters : List Char}

/-- A kind of place: the flag tells that the character before the place belongs to a word. -/
abbrev PlaceKind := Bool → List Char → Bool

/-- A place of the kind is in a text. -/
def occurs (p : PlaceKind) (inside : Bool) : List Char → Bool
  | [] => false
  | c :: cs => p inside (c :: cs) || occurs p (isWord c) cs

def cutBefore (p : PlaceKind) (inside : Bool) : List Char → List Char
  | [] => []
  | c :: cs => if p inside (c :: cs) then [] else c :: cutBefore p (isWord c) cs

/-- The flag at a place of a text. -/
def flagAt (inside : Bool) (cs : List Char) (n : Nat) : Bool :=
  if n = 0 then inside else (cs[n - 1]?).any isWord

variable {p : PlaceKind} {inside : Bool} {cs : List Char}

theorem cutBefore_append_drop (p : PlaceKind) (inside : Bool) (cs : List Char) :
    cutBefore p inside cs ++ cs.drop (cutBefore p inside cs).length = cs := by
  induction cs generalizing inside with
  | nil => rfl
  | cons c cs ih =>
    rw [cutBefore]
    split
    · rfl
    · simp [ih]

theorem cutBefore_eq_nil (found : p inside cs = true) : cutBefore p inside cs = [] := by
  cases cs with
  | nil => rfl
  | cons c cs => rw [cutBefore, if_pos found]

theorem length_cutBefore_le (p : PlaceKind) (inside : Bool) (cs : List Char) :
    (cutBefore p inside cs).length ≤ cs.length := by
  have whole := congrArg length (cutBefore_append_drop p inside cs)
  rw [length_append] at whole
  omega

theorem mem_of_mem_cutBefore (member : c ∈ cutBefore p inside cs) : c ∈ cs := by
  rw [← cutBefore_append_drop p inside cs]
  exact mem_append_left _ member

theorem flagAt_succ (inside : Bool) (c : Char) (cs : List Char) (n : Nat) :
    flagAt inside (c :: cs) (n + 1) = flagAt (isWord c) cs n := by
  cases n <;> simp [flagAt]

theorem cutBefore_early {n : Nat} (early : n < (cutBefore p inside cs).length) :
    p (flagAt inside cs n) (cs.drop n) = false := by
  induction cs generalizing inside n with
  | nil => simp [cutBefore] at early
  | cons c cs ih =>
    rw [cutBefore] at early
    split at early
    · simp at early
    · next other =>
      cases n with
      | zero => simpa [flagAt] using other
      | succ n =>
        rw [flagAt_succ, drop_succ_cons]
        exact ih (by simpa using early)

theorem not_occurs (free : occurs p inside cs = false) {n : Nat} (bound : n < cs.length) :
    p (flagAt inside cs n) (cs.drop n) = false := by
  induction cs generalizing inside n with
  | nil => simp at bound
  | cons c cs ih =>
    rw [occurs, Bool.or_eq_false_iff] at free
    cases n with
    | zero => simpa [flagAt] using free.1
    | succ n =>
      rw [flagAt_succ, drop_succ_cons]
      exact ih free.2 (by simpa using bound)

theorem cutBefore_found (found : (cutBefore p inside cs).length < cs.length) :
    p (flagAt inside cs (cutBefore p inside cs).length) (cs.drop (cutBefore p inside cs).length) = true := by
  induction cs generalizing inside with
  | nil => simp at found
  | cons c cs ih =>
    rw [cutBefore] at found ⊢
    split
    · next here => exact here
    · next other =>
      rw [if_neg other, length_cons, length_cons] at found
      rw [length_cons, flagAt_succ, drop_succ_cons]
      exact ih (by omega)

/-- A kind of place does not look beyond a mark, and the mark is no such place. -/
structure StopsAt (p : PlaceKind) (c : Char) : Prop where
  mark : ∀ inside rest, p inside (c :: rest) = false
  ahead : ∀ inside x rest, x ≠ [] → p inside (x ++ c :: rest) = p inside x

/-- A text is cut before a mark if a place of the kind stands there, and otherwise behind it. -/
theorem cutBefore_mark (stops : StopsAt p c) (mark : isWord c = false) (x rest : List Char) :
    cutBefore p inside (x ++ c :: rest) =
      if occurs p inside x then cutBefore p inside x else x ++ c :: cutBefore p false rest := by
  induction x generalizing inside with
  | nil => simp [cutBefore, occurs, stops.mark, mark]
  | cons d x ih =>
    have here : p inside (d :: (x ++ c :: rest)) = p inside (d :: x) :=
      stops.ahead inside (d :: x) rest (cons_ne_nil _ _)
    rw [cons_append, cutBefore, here, cutBefore, occurs, ih]
    cases p inside (d :: x) with
    | true => simp
    | false =>
      simp only [Bool.false_eq_true, ↓reduceIte, Bool.false_or]
      split <;> rfl

theorem cutBefore_gap (solid : ∀ inside c rest, isBlank c = true → p inside (c :: rest) = false) (g : Gap)
    (rest : List Char) : cutBefore p false (g.chars ++ rest) = g.chars ++ cutBefore p false rest := by
  have passed (blanks : List Char) (blank : ∀ c ∈ blanks, isBlank c = true) :
      cutBefore p false (blanks ++ rest) = blanks ++ cutBefore p false rest := by
    induction blanks with
    | nil => rfl
    | cons c blanks ih =>
      have first := blank c mem_cons_self
      rw [cons_append, cutBefore, solid _ _ _ first, if_neg Bool.false_ne_true, isWord_of_isBlank first,
        ih fun d member => blank d (mem_cons_of_mem c member), cons_append]
  exact passed g.chars g.blank

def startsWord (letters : List Char) : PlaceKind :=
  fun inside cs => !inside && letters.isPrefixOf cs

def standsWord (word : List Char) : PlaceKind :=
  fun inside cs => !inside && cs.takeWhile isWord == word

theorem startsWord_of_head (inside : Bool) (rest : List Char)
    (nonempty : letters ≠ []) (absent : c ∉ letters) : startsWord letters inside (c :: rest) = false := by
  obtain ⟨d, ds, rfl⟩ := exists_cons_of_ne_nil nonempty
  have other : d ≠ c := fun same => absent (same ▸ mem_cons_self)
  simp [startsWord, isPrefixOf, other]

theorem startsWord_of_blank (nonempty : letters ≠ [])
    (solid : ∀ c ∈ letters, isBlank c = false) (inside : Bool) (c : Char) (rest : List Char)
    (blank : isBlank c = true) : startsWord letters inside (c :: rest) = false := by
  refine startsWord_of_head inside rest nonempty fun member => ?_
  rw [solid c member] at blank
  exact Bool.noConfusion blank

theorem isPrefixOf_append_mark (absent : c ∉ letters) (x rest : List Char) :
    letters.isPrefixOf (x ++ c :: rest) = letters.isPrefixOf x := by
  induction letters generalizing x with
  | nil => simp
  | cons d ds ih =>
    rw [mem_cons, not_or] at absent
    cases x with
    | nil => simp [isPrefixOf, Ne.symm absent.1]
    | cons e x => simp [isPrefixOf, ih absent.2 x]

theorem startsWord_stopsAt (nonempty : letters ≠ []) (absent : c ∉ letters) : StopsAt (startsWord letters) c := by
  refine ⟨fun inside rest => startsWord_of_head inside rest nonempty absent, fun inside x rest _ => ?_⟩
  rw [startsWord, startsWord, isPrefixOf_append_mark absent]

theorem takeWhile_append_mark (mark : isWord c = false) (x rest : List Char) :
    (x ++ c :: rest).takeWhile isWord = x.takeWhile isWord := by
  induction x with
  | nil => simp [mark]
  | cons d x ih => simp [takeWhile_cons, ih]

theorem standsWord_stopsAt {word : List Char} (nonempty : word ≠ []) (mark : isWord c = false) :
    StopsAt (standsWord word) c := by
  refine ⟨fun inside rest => ?_, fun inside x rest _ => ?_⟩
  · simp [standsWord, mark, nonempty]
  · rw [standsWord, standsWord, takeWhile_append_mark mark]

theorem occurs_standsWord {word : List Char} (name : Identifier) (other : name.chars ≠ word) :
    occurs (standsWord word) false name.chars = false := by
  have inner (cs : List Char) (wordy : ∀ c ∈ cs, isWord c = true) : occurs (standsWord word) true cs = false := by
    induction cs with
    | nil => rfl
    | cons c cs ih =>
      rw [forall_mem_cons] at wordy
      rw [occurs, wordy.1, ih wordy.2]
      rfl
  have whole : name.chars.takeWhile isWord = name.chars := takeWhile_eq_self_iff.mpr name.wordy
  obtain ⟨c, cs, letters⟩ := exists_cons_of_ne_nil name.nonempty
  have wordy := name.wordy
  rw [letters, forall_mem_cons] at wordy
  have first : standsWord word false (c :: cs) = false := by
    rw [standsWord, ← letters, whole]
    simpa using other
  rw [letters, occurs, first, wordy.1, inner cs wordy.2]
  rfl

section Edges

variable {text : Array Char} {o : Options} {t t' : Thread} {pos i : Nat}

/-- No word goes on at a place. -/
def Loose (text : Array Char) (pos : Nat) : Prop :=
  ∀ d, text[pos - 1]? = some d → pos ≠ 0 → isWord d = false

theorem loose_add_iff (here : textFrom text pos = cs) (loose : Loose text pos) (inside : i ≤ cs.length) :
    Loose text (pos + i) ↔ flagAt false cs i = false := by
  cases i with
  | zero => exact iff_of_true loose rfl
  | succ n =>
    have bound : n < cs.length := inside
    have last : text[pos + n]? = some cs[n] := by rw [getElem?_of_textFrom here, getElem?_eq_getElem bound]
    simp [Loose, flagAt, last, getElem?_eq_getElem bound]

theorem loose_of_reaches (cased : o.ignoreCase = false) [Full o] {word : String}
    (first : word.toList.head? = some c) (wordy : isWord c = true) (edged : Reaches text edge o t t)
    (reached : Reaches text (lit word) o t t') :
    Loose text t.pos ∧ textFrom text t.pos = word.toList ++ textFrom text t'.pos := by
  have here := (reaches_cased cased reached).1
  have there : text[t.pos]? = some c := by
    rw [head?_of_textFrom here, head?_append, first]
    rfl
  exact ⟨(wordEdge_before_iff there wordy).mp edged.1, here⟩

end Edges

end VhdlWorkbench.Design

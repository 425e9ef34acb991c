import VhdlWorkbench.Proofs.FoundDeclarations

/-!
Names that a component declares are found, unless it stands at the very start of the text.
-/

namespace VhdlWorkbench.Pattern

open List Option Regex Source Bool

/-- A pattern that finds its way through a part of a text as through a text. -/
def Node.movable : Node → Bool
  | .empty | .one _ | .pasted _ | .anchor .lineStart | .anchor .wordEdge => true
  | .run _ _ _ greed => greed != .possessive
  | .seq a b | .alt a b => a.movable && b.movable
  | .capture _ _ body | .group body | .rep body 0 (some 1) .greedy => body.movable
  | _ => false

/-- Characters in lines of their own: what stands before them ends a line, and their last is no letter. -/
structure OwnLines (front cs : List Char) : Prop where
  opens : ∀ c, front.getLast? = some c → c = '\n'
  closes : ∀ c, cs.getLast? = some c → Text.isWord c = false

section

variable {front cs back : List Char} {o : Options} {pos : Nat}

theorem getElem?_whole {c : Char} (there : cs.toArray[pos]? = some c) :
    (front ++ (cs ++ back)).toArray[front.length + pos]? = some c := by
  rw [getElem?_toArray] at there ⊢
  rw [getElem?_append_right (Nat.le_add_right _ _), Nat.add_sub_cancel_left]
  obtain ⟨inside, -⟩ := List.getElem?_eq_some_iff.mp there
  rwa [getElem?_append_left inside]

theorem lineStart_whole (own : OwnLines front cs) (lines : o.multiline = true)
    (holds : Anchor.holds cs.toArray o .lineStart pos = true) :
    Anchor.holds (front ++ (cs ++ back)).toArray o .lineStart (front.length + pos) = true := by
  rw [lineStart_holds_iff lines] at holds ⊢
  rcases Nat.eq_zero_or_pos pos with rfl | positive
  · rcases eq_nil_or_concat front with rfl | ⟨init, c, rfl⟩
    · exact Or.inl rfl
    · obtain rfl := own.opens c (by simp)
      right
      simp
  · right
    rw [Nat.add_sub_assoc positive]
    exact getElem?_whole (holds.resolve_left (Nat.ne_of_gt positive))

theorem wordEdge_whole (own : OwnLines front cs)
    (holds : Anchor.holds cs.toArray o .wordEdge pos = true) :
    Anchor.holds (front ++ (cs ++ back)).toArray o .wordEdge (front.length + pos) = true := by
  have unwordy {c : Char} (other : Text.isWord c = false) : Category.accepts o .word c = false := by
    simp [Category.accepts, other]
  -- behind the last character, which is no letter, no word ends
  have inside : pos < cs.length := by
    by_contra beyond
    have after : cs.toArray[pos]? = none := by simpa using beyond
    simp only [Anchor.holds, after, map_none, getD_none, bne_false] at holds
    split at holds
    · simp at holds
    · cases before : cs.toArray[pos - 1]? with
      | none => simp [before] at holds
      | some c =>
        rw [getElem?_toArray] at before
        obtain ⟨bound, -⟩ := List.getElem?_eq_some_iff.mp before
        have last : cs.getLast? = some c := by
          rwa [getLast?_eq_getElem?, show cs.length - 1 = pos - 1 by omega]
        simp [getElem?_toArray, before, unwordy (own.closes c last)] at holds
  have after : (front ++ (cs ++ back)).toArray[front.length + pos]? = cs.toArray[pos]? := by
    rw [getElem?_whole (show cs.toArray[pos]? = some cs[pos] by simp [inside])]
    simp [inside]
  simp only [Anchor.holds, after] at holds ⊢
  rcases Nat.eq_zero_or_pos pos with rfl | positive
  · by_cases empty : front = []
    · subst empty
      exact holds
    · have before : (front ++ (cs ++ back)).toArray[front.length + 0 - 1]? = some '\n' := by
        obtain ⟨init, c, rfl⟩ := (eq_nil_or_concat front).resolve_left empty
        obtain rfl := own.opens c (by simp)
        simp
      rw [before, if_neg (by simpa using empty)]
      simpa [unwordy (show Text.isWord '\n' = false by decide)] using holds
  · have bound : pos - 1 < cs.length := by omega
    have before : (front ++ (cs ++ back)).toArray[front.length + pos - 1]? = cs.toArray[pos - 1]? := by
      rw [Nat.add_sub_assoc positive, getElem?_whole (show cs.toArray[pos - 1]? = some cs[pos - 1] by simp [bound])]
      simp [bound]
    rw [before, if_neg (by omega)]
    rwa [if_neg (by omega)] at holds

theorem textFrom_whole (inside : pos ≤ cs.length) :
    textFrom (front ++ (cs ++ back)).toArray (front.length + pos) = textFrom cs.toArray pos ++ back := by
  simp [textFrom, drop_append_of_le_length inside, drop_append]

/-- What a way through a part shows, the run over the whole text finds. -/
theorem exec_whole (back : List Char) (own : OwnLines front cs) (lines : o.multiline = true) {p : Node}
    (movable : p.movable = true) {t t' : Thread} (reached : Reaches cs.toArray p o t t')
    (spans : Array (Option (Nat × Nat))) {k : Continuation}
    (goes : ∀ spans', (k ⟨front.length + t'.pos, spans'⟩).isSome = true) :
    (exec (front ++ (cs ++ back)).toArray p o ⟨front.length + t.pos, spans⟩ k).isSome = true := by
  induction p generalizing t t' k spans with
  | empty =>
    obtain rfl := reached
    exact goes spans
  | one s =>
    obtain ⟨c, there, accepted, rfl⟩ := reached
    exact exec_of_reaches (.one s) o _ _ k rfl ⟨c, getElem?_whole there, accepted, rfl⟩ (goes spans)
  | run s lo hi greed =>
    obtain ⟨n, enough, most, taken, rfl⟩ := reached
    refine exec_of_reaches (.run s lo hi greed) o _ _ k movable ⟨n, enough, most, fun i bound => ?_, rfl⟩
      (by simpa [Nat.add_assoc] using goes spans)
    obtain ⟨c, there, accepted⟩ := taken i bound
    exact ⟨c, by rw [Nat.add_assoc]; exact getElem?_whole there, accepted⟩
  | pasted word =>
    obtain ⟨stands, rfl⟩ := reached
    refine exec_of_reaches (.pasted word) o _ _ k rfl ⟨?_, rfl⟩ (by simpa [Nat.add_assoc] using goes spans)
    obtain ⟨letters, tail, here, pairs⟩ := (wordStandsAt_iff _ _).mp stands
    by_cases inside : t.pos ≤ cs.length
    · refine (wordStandsAt_iff _ _).mpr ⟨letters, tail ++ back, ?_, pairs⟩
      rw [textFrom_whole inside, here, append_assoc]
    · obtain ⟨rfl, -⟩ : letters = [] ∧ tail = [] := by
        rw [textFrom, drop_eq_nil_of_le (by simpa using Nat.le_of_not_le inside)] at here
        exact append_eq_nil_iff.mp here.symm
      exact (wordStandsAt_iff _ _).mpr ⟨[], _, rfl, pairs⟩
  | anchor a =>
    obtain ⟨holds, rfl⟩ := reached
    cases a with
    | lineStart =>
      exact exec_of_reaches (.anchor .lineStart) o _ _ k rfl ⟨lineStart_whole own lines holds, rfl⟩ (goes spans)
    | wordEdge =>
      exact exec_of_reaches (.anchor .wordEdge) o _ _ k rfl ⟨wordEdge_whole own holds, rfl⟩ (goes spans)
    | _ => simp [Node.movable] at movable
  | seq a b iha ihb =>
    obtain ⟨m, first, second⟩ := reached
    obtain ⟨left, right⟩ := and_eq_true_iff.mp movable
    rw [show Node.seq a b = a ++ b from rfl, exec_seq]
    exact iha left first spans fun spans' => ihb right second spans' goes
  | alt a b iha ihb =>
    obtain ⟨left, right⟩ := and_eq_true_iff.mp movable
    rw [exec_alt, isSome_or, or_eq_true]
    exact reached.imp (fun first => iha left first spans goes) fun second => ihb right second spans goes
  | capture slot name body ih =>
    obtain ⟨m, inner, rfl⟩ := reached
    rw [exec_capture]
    exact ih movable inner spans fun spans' => goes _
  | group body ih => exact ih movable reached spans goes
  | rep body lo hi greed ih =>
    obtain ⟨rfl, rfl, rfl, inner⟩ : lo = 0 ∧ hi = some 1 ∧ greed = .greedy ∧ body.movable = true := by
      unfold Node.movable at movable
      split at movable <;> simp_all
    rw [show Node.rep body 0 (some 1) .greedy = Node.optional body from rfl, exec_optional, isSome_or,
      or_eq_true]
    rcases Design.reaches_optional reached with rfl | once
    · exact Or.inr (goes spans)
    · exact Or.inl (ih inner once spans goes)
  | _ => simp [Node.movable] at movable

end

end VhdlWorkbench.Pattern

namespace VhdlWorkbench.Declaration

open Pattern Pattern.Node Design List Option Text Regex Source Bool

/-- The word `component` opens the first line of the characters. -/
def OpensComponent (cs : List Char) : Prop :=
  Reads "component" ((cs.dropWhile fun c => c == ' ' || c == '\t').takeWhile isWord)

instance : DecidablePred OpensComponent :=
  fun _ => inferInstanceAs (Decidable (Reads _ _))

theorem accepts_indent {d : Char} :
    Single.accepts { ignoreCase := true, dotAll := true } (.set false [.char ' ', .char '\t']) d = true ↔
      d = ' ' ∨ d = '\t' := by
  have blank : memberAcceptsLetter { ignoreCase := true, dotAll := true } ' ' d = true ↔ d = ' ' :=
    charAccepts_mark (o := { ignoreCase := true, dotAll := true }) (by decide)
  have tab : memberAcceptsLetter { ignoreCase := true, dotAll := true } '\t' d = true ↔ d = '\t' :=
    charAccepts_mark (o := { ignoreCase := true, dotAll := true }) (by decide)
  simp [Single.accepts, SetItem.accepts, blank, tab]

theorem opensComponent_of_word (name : Identifier) {blanks rest : List Char}
    (spaces : ∀ c ∈ blanks, c = ' ' ∨ c = '\t') (reads : Reads "component" name.chars)
    (stops : Stops isWord rest) :
    OpensComponent (blanks ++ (name.chars ++ rest)) := by
  obtain ⟨c, cs, letters⟩ := exists_cons_of_ne_nil name.nonempty
  have wordy := name.wordy c (by simp [letters])
  have first : (c == ' ' || c == '\t') = false := by
    rw [or_eq_false_iff, beq_eq_false_iff_ne, beq_eq_false_iff_ne]
    constructor <;> rintro rfl <;> exact absurd wordy (by decide)
  have cut : (blanks ++ (name.chars ++ rest)).dropWhile (fun c => c == ' ' || c == '\t') = name.chars ++ rest := by
    rw [dropWhile_append_of_pos fun d member => by simpa using spaces d member, letters, cons_append,
      dropWhile_cons_of_neg (by simp [first])]
  rw [OpensComponent, cut, takeWhile_append_of_stop name.wordy stops]
  exact reads

instance : Folds leadingComponent.options where
  full := rfl
  fold := rfl

theorem opensComponent_of_matchAt {cs : List Char} {pos : Nat} {m : Match}
    (found : leadingComponent.matchAt cs.toArray pos false = some m) : pos = 0 ∧ OpensComponent cs := by
  obtain ⟨_, _, ⟨_, ⟨_, ⟨first, rfl⟩, indent⟩, letters⟩, edged, rfl⟩ := matchAt_front 6 found
  obtain ⟨blanks, here, spaces, -, -, rfl⟩ := reaches_run indent
  have word : Reaches cs.toArray (lit "component") leadingComponent.options _ _ := letters
  obtain ⟨w, reads, there, rfl⟩ := reaches_word word
  obtain rfl : pos = 0 := by
    simp only [Anchor.holds, show leadingComponent.options.multiline = false from rfl, Bool.false_and,
      Bool.or_false, beq_iff_eq] at first
    exact first
  let name := reads.identifier (by decide) (by decide)
  have stops := (wordEdge_behind_iff there name.nonempty name.wordy).mp edged
  refine ⟨rfl, ?_⟩
  rw [there, textFrom_zero] at here
  rw [here]
  exact opensComponent_of_word name (fun c member => accepts_indent.mp (spaces c member)) reads stops

/-- The declaration of a component from its word to its semicolon, cut at its word `end`. -/
structure ComponentText where
  keyword : Keyword "component"
  body : List Char
  ending : Keyword "end"
  tail : List Char
  opens : ∃ c, body.head? = some c ∧ isWord c = false
  closes : ∀ c, body.getLast? = some c → isWord c = false
  noEnd : hasWord "end" true body = false
  apart : ∀ c, tail.head? = some c → isWord c = false
  single : ';' ∉ tail

namespace ComponentText

variable (c : ComponentText)

def text : List Char :=
  c.keyword.chars ++ (c.body ++ (c.ending.chars ++ (c.tail ++ [';'])))

theorem body_nonempty : c.body ≠ [] := by
  obtain ⟨_, head, -⟩ := c.opens
  rintro empty
  simp [empty] at head

theorem text_last : c.text.getLast? = some ';' := by
  simp [text]

theorem exec_text (rest : List Char) (spans : Array (Option (Nat × Nat))) :
    exec (c.text ++ rest).toArray leadingComponent.node leadingComponent.options ⟨0, spans⟩ some =
      some ⟨c.text.length, spans⟩ := by
  let word := c.keyword.identifier (by decide) (by decide)
  obtain ⟨w, ws, letters⟩ := exists_cons_of_ne_nil word.nonempty
  have here : textFrom (c.text ++ rest).toArray 0 =
      c.keyword.chars ++ (c.body ++ (c.ending.chars ++ (c.tail ++ ';' :: rest))) := by
    simp [textFrom_zero, text]
  have atBody := textFrom_append here
  have atEnd := textFrom_append atBody
  have atTail := textFrom_append atEnd
  have opens : Stops isWord (c.body ++ (c.ending.chars ++ (c.tail ++ ';' :: rest))) := by
    obtain ⟨b, head, other⟩ := c.opens
    intro d first
    rw [head?_append, head, some_or] at first
    exact some.inj first ▸ other
  have stops : Stops isWord (c.tail ++ ';' :: rest) := by
    intro d first
    cases empty : c.tail with
    | nil =>
      obtain rfl : ';' = d := by simpa [empty] using first
      decide
    | cons x xs => exact c.apart d (by simpa [empty] using first)
  show exec _ (start ++ many (.set false [.char ' ', .char '\t']) ++ lit "component" ++ edge ++ few .any ++
    edge ++ lit "end" ++ edge ++ few .any ++ lit ";") { ignoreCase := true, dotAll := true } _ _ = _
  simp only [exec_seq]
  rw [start, exec_anchor_of_holds rfl]
  refine exec_run_of_segment (show _ = [] ++ _ from here) (forall_mem_nil _) ?_ (Nat.zero_le _) ?_
  · intro d first
    rw [eq_false_iff]
    intro indent
    have wordy : isWord d = true := by
      obtain rfl : w = d := by simpa [show c.keyword.chars = w :: ws from letters] using first
      exact word.wordy w (by simp [letters])
    rcases accepts_indent.mp indent with rfl | rfl <;> exact absurd wordy (by decide)
  refine exec_keyword c.keyword (by decide) here ?_
  rw [exec_edge word here opens rfl]
  obtain ⟨positive, before⟩ := getElem?_last_of_textFrom here (getLast?_eq_some_getLast word.nonempty)
  refine exec_few_of_segment atBody (fun _ _ => rfl) ?_ ?_
  · -- an earlier end would be a word `end` in the body
    exact fun i inside => exec_word_of_absent (by decide) (by decide) atBody
      ⟨positive, _, before, word.wordy _ (getLast_mem word.nonempty)⟩ c.closes c.noEnd inside rfl
  refine exec_wholeWord c.ending (by decide) (by decide) atBody c.body_nonempty c.closes stops rfl ?_
  refine exec_few_of_segment atTail (fun _ _ => rfl) ?_ ?_
  · exact fun i inside => exec_mark_of_absent (c := ';') rfl (by decide) c.single atTail inside rfl
  refine exec_mark (c := ';') rfl (textFrom_append atTail) ?_
  simp [text]
  omega

theorem matchAt_text (rest : List Char) :
    ∃ m, leadingComponent.matchAt (c.text ++ rest).toArray 0 false = some m ∧ m.start = 0 ∧
      m.stop = c.text.length :=
  ⟨_, matchAt_of_exec rfl (Nat.zero_le _) (c.exec_text rest _), rfl, rfl⟩

theorem searched_first {source : String} {rest : List Char}
    (stripped : withoutComments source = String.ofList (c.text ++ rest)) :
    searched source = String.ofList rest := by
  obtain ⟨m, found, start, stop⟩ := c.matchAt_text rest
  have moves : m.start < m.stop := by
    rw [start, stop, text]
    simp only [length_append, length_singleton]
    omega
  have later (pos : Nat) (positive : 0 < pos) :
      leadingComponent.matchAt (c.text ++ rest).toArray pos false = none := by
    rw [eq_none_iff_forall_not_mem]
    intro m matched
    exact absurd (opensComponent_of_matchAt matched).1 (Nat.ne_of_gt positive)
  have only : leadingComponent.matches_ (String.ofList (c.text ++ rest)) = [m] := by
    rw [Regex.matches_, String.toList_ofList,
      Regex.matchesFrom_of_searchFrom (Regex.searchFrom_of_matchAt rfl found) moves,
      Regex.matchesFrom_eq_nil rfl fun i _ => later _ (by omega)]
  rw [searched, stripped, Regex.replace, Regex.replaceBy, only]
  simp [Regex.splice, start, stop, Pattern.segment]

end ComponentText

theorem searched_of_other {source : String} {cs : List Char}
    (stripped : withoutComments source = String.ofList cs) (other : ¬OpensComponent cs) :
    searched source = String.ofList cs := by
  rw [searched, stripped]
  refine replace_eq_self rfl "" fun pos => ?_
  rw [eq_none_iff_forall_not_mem, String.toList_ofList]
  intro m found
  exact other (opensComponent_of_matchAt found).2

theorem opensComponent_front {front back : List Char} (feed : front.getLast? = some '\n') :
    OpensComponent (front ++ back) ↔ OpensComponent front := by
  obtain ⟨init, rfl⟩ := getLast?_eq_some_iff.mp feed
  have cut (back : List Char) : (init ++ '\n' :: back).dropWhile (fun c => c == ' ' || c == '\t') =
      init.dropWhile (fun c => c == ' ' || c == '\t') ++ '\n' :: back := by
    rw [dropWhile_append]
    split <;> simp_all
  have word (cs back : List Char) : (cs ++ '\n' :: back).takeWhile isWord = cs.takeWhile isWord := by
    rw [takeWhile_append, takeWhile_cons_of_neg (by decide), append_nil]
    split
    · next all => exact ( takeWhile_prefix isWord).eq_of_length all |>.symm
    · rfl
  rw [OpensComponent, OpensComponent, append_assoc, singleton_append, cut, cut, word, word]

theorem movable_of_mem {name : String} {kinds : Int} {form : Options × Node} (listed : form ∈ formsOf name kinds) :
    (ofNode form.1 form.2).node.movable = true ∧ (ofNode form.1 form.2).options.multiline = true := by
  have all : (formsOf name 7).all (fun form => (ofNode form.1 form.2).node.movable &&
      (ofNode form.1 form.2).options.multiline) = true := rfl
  exact and_eq_true_iff.mp (all_eq_true.mp all form (formsOf_subset name kinds listed))

/-- What is declared in a part of a text with lines of its own is declared in the text. -/
theorem declaredAt_whole (back : List Char) {name : String} {front cs : List Char} {pos : Nat} (own : OwnLines front cs)
    (declared : DeclaredAt name cs.toArray pos) :
    DeclaredAt name (front ++ (cs ++ back)).toArray (front.length + pos) := by
  obtain ⟨form, listed, m, found⟩ := declared
  obtain ⟨movable, lines⟩ := movable_of_mem listed
  obtain ⟨t, reached, -⟩ := matchAt_reaches found
  have inside := pos_le_of_matchAt found
  have run := exec_whole back own lines movable reached (Array.replicate (ofNode form.1 form.2).slots none)
    (k := some) fun _ => rfl
  obtain ⟨r, success⟩ := isSome_iff_exists.mp run
  exact ⟨form, listed, _, matchAt_of_exec rfl (by simp at inside ⊢; omega) success⟩

theorem end_spelled : Spells "end" "end".toList := by decide

theorem space_unwordy : isWord ' ' = false := by decide

def clockedComponent : ComponentText where
  keyword := ⟨"component".toList, by decide⟩
  body := " c is\nport (\nclk : in bit);\n".toList
  ending := ⟨"end".toList, end_spelled⟩
  tail := " component".toList
  opens := ⟨' ', rfl, space_unwordy⟩
  closes := by rintro c ⟨⟩; decide
  noEnd := by decide
  apart := by rintro c ⟨⟩; decide
  single := by decide

def clockedText : String :=
  "component c is\nport (\nclk : in bit);\nend component;\n"

end VhdlWorkbench.Declaration

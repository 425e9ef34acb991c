import VhdlWorkbench.Proofs.LookupPlaces

/-!
Lines that open with a label begin only in the blanks before it.
-/

namespace VhdlWorkbench.Design

open Pattern Pattern.Node Declaration List Text Option

variable {cs tail : List Char}

def labelled (cs : List Char) : Bool :=
  !(firstWord cs).isEmpty && (dropBlanks ((dropBlanks cs).dropWhile isWord)).head? == some ':'

theorem labelled_iff : labelled cs = true ↔ ∃ (g : Gap) (w : Identifier) (g' : Gap) (rest : List Char),
      cs = g.chars ++ (w.chars ++ (g'.chars ++ ':' :: rest)) := by
  constructor
  · intro opens
    simp only [labelled, firstWord, Bool.and_eq_true, Bool.not_eq_true', isEmpty_eq_false_iff, beq_iff_eq] at opens
    obtain ⟨nonempty, colon⟩ := opens
    obtain ⟨rest, split⟩ := head?_eq_some_iff.mp colon
    refine ⟨⟨cs.takeWhile isBlank, fun c => mem_takeWhile_imp⟩, ⟨_, nonempty, fun c => mem_takeWhile_imp⟩,
      ⟨((dropBlanks cs).dropWhile isWord).takeWhile isBlank, fun c => mem_takeWhile_imp⟩, rest, ?_⟩
    simp only [← split, dropBlanks, takeWhile_append_dropWhile]
  · rintro ⟨g, w, g', rest, rfl⟩
    have solid : Stops isBlank (':' :: rest) := by
      rintro c ⟨⟩
      decide
    have stops : Stops isWord (g'.chars ++ ':' :: rest) :=
      g'.wordless_head (by rintro c ⟨⟩; decide)
    have behind : (w.chars ++ (g'.chars ++ ':' :: rest)).dropWhile isWord = g'.chars ++ ':' :: rest := by
      have whole := takeWhile_append_dropWhile (p := isWord) (l := w.chars ++ (g'.chars ++ ':' :: rest))
      rw [takeWhile_append_of_stop w.wordy stops] at whole
      exact append_cancel_left whole
    simp [labelled, firstWord_identifier g w stops, w.nonempty, dropBlanks_gap g (w.blankless_head _), behind,
      dropBlanks_gap g' solid]

theorem colon_mem_of_labelled (opens : labelled cs = true) : ':' ∈ cs := by
  obtain ⟨g, w, g', rest, rfl⟩ := labelled_iff.mp opens
  simp

theorem labelled_of_append (colonless : ':' ∉ tail) (opens : labelled (cs ++ tail) = true) : labelled cs = true := by
  obtain ⟨g, w, g', rest, split⟩ := labelled_iff.mp opens
  have whole : cs ++ tail = (g.chars ++ (w.chars ++ g'.chars)) ++ ':' :: rest := by
    rw [split]
    simp only [append_assoc]
  rcases append_eq_append_iff.mp whole with ⟨x, -, behind⟩ | ⟨x, front, behind⟩
  · exact absurd (by simp [behind]) colonless
  · cases x with
    | nil => exact absurd (by simp [← show _ = tail from behind]) colonless
    | cons c x =>
      obtain rfl := (cons.inj behind).1
      exact labelled_iff.mpr ⟨g, w, g', x, by simp [front]⟩

theorem blank_of_labelled {label : Identifier} {g : Gap} {rest : List Char} (colonless : ':' ∉ cs)
    (closes : ∀ c, cs.getLast? = some c → isWord c = false)
    (opens : labelled (cs ++ (label.chars ++ (g.chars ++ ':' :: rest))) = true) : ∀ c ∈ cs, isBlank c = true := by
  obtain ⟨a, w, b, rest', split⟩ := labelled_iff.mp opens
  have plain {x : List Char} (free : ':' ∉ x) : ∀ c ∈ x, decide (c ≠ ':') = true := by
    intro c member
    exact decide_eq_true fun colon => free (colon ▸ member)
  have stops {x : List Char} : ∀ c, (':' :: x).head? = some c → decide (c ≠ ':') = false := by
    rintro c ⟨⟩
    decide
  obtain ⟨same, -⟩ := cut_unique (p := fun c => decide (c ≠ ':'))
    (show (cs ++ (label.chars ++ g.chars)) ++ ':' :: rest = (a.chars ++ (w.chars ++ b.chars)) ++ ':' :: rest' by
      simpa only [append_assoc] using split)
    (plain (by simp only [mem_append, not_or]; exact ⟨colonless, label.not_mem (by decide), g.not_mem (by decide)⟩))
    stops
    (plain (by simp only [mem_append, not_or]
               exact ⟨a.not_mem (by decide), w.not_mem (by decide), b.not_mem (by decide)⟩)) stops
  -- a solid character would belong to the label's word, and a blank stands behind it
  by_contra mixed
  have left : cs.dropWhile isBlank ≠ [] := by
    intro empty
    exact mixed (dropWhile_eq_nil_iff.mp empty)
  have words : w.chars ++ b.chars = cs.dropWhile isBlank ++ (label.chars ++ g.chars) := by
    have both := congrArg dropBlanks same
    rw [dropBlanks_gap a (w.blankless_head _), dropBlanks, dropWhile_append, if_neg (by simpa using left)] at both
    exact both.symm
  rcases append_eq_append_iff.mp words with ⟨x, front, behind⟩ | ⟨x, front, behind⟩
  · obtain ⟨c, letters, name⟩ := exists_cons_of_ne_nil label.nonempty
    have blank : isBlank c = true := b.blank c (by simp [behind, name])
    rw [label.solid c (by simp [name])] at blank
    exact Bool.noConfusion blank
  · have last := getLast?_eq_some_getLast left
    have end_ : cs.getLast? = some ((cs.dropWhile isBlank).getLast left) := by
      conv_lhs => rw [← takeWhile_append_dropWhile (p := isBlank) (l := cs)]
      rw [getLast?_append_of_ne_nil _ left, last]
    have wordy := w.wordy ((cs.dropWhile isBlank).getLast left) (by simp [front])
    rw [closes _ end_] at wordy
    exact Bool.noConfusion wordy

theorem mem_behindFeeds_append {a b : List Char} (member : tail ∈ behindFeeds (a ++ b)) :
    (∃ y ∈ behindFeeds a, tail = y ++ b) ∨ tail ∈ behindFeeds b := by
  induction a with
  | nil => exact Or.inr member
  | cons c a ih =>
    have later (behind : tail ∈ behindFeeds (a ++ b)) :
        (∃ y ∈ behindFeeds (c :: a), tail = y ++ b) ∨ tail ∈ behindFeeds b := by
      rcases ih behind with ⟨y, inside, split⟩ | beyond
      · refine Or.inl ⟨y, ?_, split⟩
        rw [behindFeeds]
        split
        · exact mem_cons_of_mem _ inside
        · exact inside
      · exact Or.inr beyond
    rw [cons_append, behindFeeds] at member
    split at member
    · next feed =>
      rcases mem_cons.mp member with rfl | behind
      · exact Or.inl ⟨a, by simp [behindFeeds, feed], rfl⟩
      · exact later behind
    · exact later member

theorem unlabelled_append (single : ∀ line ∈ behindFeeds cs, labelled line = false)
    (colonless : ':' ∉ tail) : ∀ line ∈ behindFeeds (cs ++ tail), labelled line = false := by
  intro line member
  rw [← Bool.not_eq_true]
  intro opens
  rcases mem_behindFeeds_append member with ⟨y, inside, rfl⟩ | beyond
  · have early := labelled_of_append colonless opens
    rw [single y inside] at early
    exact Bool.noConfusion early
  · obtain ⟨front, rfl⟩ := mem_behindFeeds.mp beyond
    exact colonless (by simp [colon_mem_of_labelled opens])

/-- A line that opens with a label begins at a place. -/
def LabelAt (text : Array Char) (pos : Nat) : Prop :=
  LineStart text pos ∧ labelled (textFrom text pos) = true

section Places

variable {front rest : List Char} {lead : Space} {label : Identifier} {g : Gap} {pos : Nat}

/-- In a text with one label, a line opens with a label only in the blanks before it. -/
theorem place_of_label (ends : ∃ c, front.getLast? = some c ∧ isWord c = true) (colonless : ':' ∉ front)
    (single : ∀ tail ∈ behindFeeds (label.chars ++ (g.chars ++ ':' :: rest)), labelled tail = false)
    (opens : LabelAt (front ++ (lead.chars ++ (label.chars ++ (g.chars ++ ':' :: rest)))).toArray pos) :
    '\n' ∈ lead.chars ∧ ∃ i ≤ lead.chars.length, pos = front.length + i := by
  obtain ⟨line, opens⟩ := opens
  obtain ⟨c, last, wordy⟩ := ends
  have whole : textFrom (front ++ (lead.chars ++ (label.chars ++ (g.chars ++ ':' :: rest)))).toArray 0 =
      (front ++ lead.chars) ++ (label.chars ++ (g.chars ++ ':' :: rest)) := by
    rw [textFrom_zero, append_assoc]
  by_cases early : pos ≤ (front ++ lead.chars).length
  · have blank : ∀ d ∈ (front ++ lead.chars).drop pos, isBlank d = true := by
      rw [← Nat.zero_add pos, textFrom_add, whole, drop_append_of_le_length early] at opens
      refine blank_of_labelled ?_ ?_ opens
      · intro member
        rcases mem_append.mp (mem_of_mem_drop member) with letter | space
        · exact colonless letter
        · exact lead.not_mem (by decide) space
      · intro d final
        rw [getLast?_drop] at final
        split at final
        · simp at final
        · rw [getLast?_append_of_ne_nil _ lead.nonempty] at final
          exact isWord_of_isBlank (lead.blank d (mem_of_getLast? final))
    have beyond : front.length ≤ pos := by
      by_contra before
      have space := blank c (by
        rw [drop_append_of_le_length (by omega)]
        refine mem_append_left _ (mem_of_getLast? (l := front.drop pos) ?_)
        rw [getLast?_drop, if_neg (by omega), last])
      rw [isWord_of_isBlank space] at wordy
      exact Bool.noConfusion wordy
    obtain ⟨i, rfl⟩ := Nat.exists_eq_add_of_le beyond
    rw [length_append] at early
    refine ⟨?_, i, by omega, rfl⟩
    have here := whole
    rw [append_assoc] at here
    obtain ⟨positive, before⟩ := getElem?_last_of_textFrom here last
    have atLead := textFrom_append here
    rw [Nat.zero_add] at positive before atLead
    cases i with
    | zero =>
      rcases line with zero | feed
      · exact absurd zero positive
      · obtain rfl := some.inj (before.symm.trans feed)
        exact absurd wordy (by decide)
    | succ i =>
      have feed := (lineStart_iff_feed atLead (Nat.zero_lt_succ i) (by omega)).mp line
      obtain ⟨x, split⟩ := mem_behindFeeds.mp feed
      rw [split]
      simp
  · obtain ⟨j, rfl⟩ := Nat.exists_eq_add_of_lt (Nat.lt_of_not_le early)
    have atLabel := textFrom_append whole
    rw [Nat.zero_add] at atLabel
    rw [Nat.add_assoc, textFrom_add, atLabel] at opens
    have inside : j + 1 ≤ (label.chars ++ (g.chars ++ ':' :: rest)).length := by
      by_contra outside
      rw [drop_eq_nil_of_le (by omega)] at opens
      exact absurd opens (by decide)
    have feed := (lineStart_iff_feed (atLabel.trans (append_nil _).symm) (Nat.zero_lt_succ j) inside).mp line
    rw [single _ feed] at opens
    exact Bool.noConfusion opens

end Places

section Matches

variable {r : Regex} {place : LinePlace} {body : List Char} {P : Match → Prop}

theorem matches_of_label (plain : r.opening = none)
    (starts : ∀ pos b m, r.matchAt (place.text body).toArray pos b = some m →
      ∃ i ≤ place.lead.chars.length, pos = place.front.length + i ∧ LineStart (place.text body).toArray pos)
    (matched : ∀ i ≤ place.lead.chars.length, LineStart (place.text body).toArray (place.front.length + i) →
      ∃ m, r.matchAt (place.text body).toArray (place.front.length + i) false = some m ∧ P m ∧
        place.front.length + place.lead.chars.length < m.stop) :
    ∃ m, r.matches_ (String.ofList (place.text body)) = [m] ∧ P m := by
  obtain ⟨i, inside, line⟩ := place.exists_lineStart body
  obtain ⟨_, there, -⟩ := matched i inside line
  have each : ∀ j ≤ place.front.length + i, ∀ m, r.matchAt (place.text body).toArray j false = some m →
      P m ∧ place.front.length + place.lead.chars.length < m.stop ∧ m.start ≤ place.front.length + place.lead.chars.length := by
    intro j _ m found
    obtain ⟨n, bound, rfl, begins⟩ := starts j false m found
    obtain ⟨m', same, known⟩ := matched n bound begins
    obtain rfl := some.inj (found.symm.trans same)
    rw [Regex.matchAt_start found]
    exact ⟨known.1, known.2, by omega⟩
  rw [← Nat.zero_add (place.front.length + i)] at there
  obtain ⟨m, found, holds, late, start⟩ := Regex.searchFrom_upTo plain (by simpa using each) there
  refine ⟨m, ?_, holds⟩
  have silent : ∀ i ≤ (place.text body).toArray.size - m.stop,
      r.matchAt (place.text body).toArray (m.stop + i) false = none := by
    intro i _
    cases again : r.matchAt (place.text body).toArray (m.stop + i) false with
    | none => rfl
    | some _ =>
      obtain ⟨n, bound, position, -⟩ := starts _ _ _ again
      omega
  rw [Regex.matches_, String.toList_ofList, Regex.matchesFrom_of_searchFrom found (by omega),
    Regex.matchesFrom_eq_nil plain silent]

theorem matches_of_silent (plain : r.opening = none)
    (silent : ∀ pos, r.matchAt cs.toArray pos false = none) : r.matches_ (String.ofList cs) = [] := by
  rw [Regex.matches_, String.toList_ofList, Regex.matchesFrom_eq_nil plain fun i _ => silent (0 + i)]

end Matches

end VhdlWorkbench.Design

import VhdlWorkbench.Proofs.BindingText

/-!
The widths of the columns of a map: those of the widest bindings that are written in its text.
-/

namespace VhdlWorkbench.Layout

open Pattern Pattern.Node Design List String Text Option

variable {m : Match} {b : BindingText} {u X value formal : List Char} {w : Nat}

variable {text : Array Char} {pos : Nat} {cs rest : List Char}

/-- A binding is written in a text: it begins a line, and its line ends behind it. -/
def Writes (cs : List Char) (b : BindingText) : Prop :=
  ∃ tail ∈ lineTails true cs, ∃ rest, tail = b.text ++ rest ∧ EndsLine rest

def bindingRows : Regex :=
  Regex.ofNode { multiline := true } bindingRow

/-- What the groups of a match are for a binding. -/
structure Shows (m : Match) (b : BindingText) : Prop where
  port : m.named "port" = ofList b.formal.chars
  bind : m.named "bind" = ofList (valuePart b.body)

/-- A binding stands at a place. -/
def StandsAt (text : Array Char) (pos : Nat) (b : BindingText) : Prop :=
  LineStart text pos ∧ ∃ rest, textFrom text pos = b.text ++ rest ∧ EndsLine rest

theorem standsAt_of_matchAt {nonempty : Bool} (found : bindingRows.matchAt text pos nonempty = some m) :
    ∃ b, StandsAt text pos b := by
  obtain ⟨starts, b, rest, here, feed⟩ := exists_binding_of_matchAt found
  exact ⟨b, (lineStart_holds_iff rfl pos).mp starts, rest, here, feed⟩

theorem matchAt_of_standsAt (there : StandsAt text pos b) :
    ∃ m, bindingRows.matchAt text pos false = some m ∧ m.stop = pos + b.text.length ∧ Shows m b := by
  obtain ⟨starts, rest, here, feed⟩ := there
  have nonempty : b.text ++ rest ≠ [] := by simp [BindingText.text]
  obtain ⟨m, found, stop, port, value, -⟩ := matchAt_of_binding (Or.inl rfl) ((lineStart_holds_iff rfl pos).mpr starts)
    (Nat.le_of_lt (lt_size_of_textFrom here nonempty)) b here feed
  exact ⟨m, found, stop, port, value⟩

theorem feed_in_append {a b w : List Char} (feed : a ++ b = u ++ '\n' :: w) :
    (∃ a', a = u ++ '\n' :: a' ∧ w = a' ++ b) ∨ ∃ b', b = b' ++ '\n' :: w := by
  rcases append_eq_append_iff.mp feed with ⟨b', -, behind⟩ | ⟨a', whole, behind⟩
  · exact Or.inr ⟨b', behind⟩
  · cases a' with
    | nil => exact Or.inr ⟨[], behind.symm⟩
    | cons c a' =>
      rw [cons_append, cons.injEq] at behind
      exact Or.inl ⟨a', behind.1 ▸ whole, behind.2⟩

theorem head_behind_feed (g : Gap) {g' : List Char} {c : Char} (feed : g.chars = u ++ '\n' :: g')
    (solid : isBlank c = false) (rest : List Char) : (dropBlanks (g' ++ c :: rest)).head? = some c := by
  have blank : ∀ d ∈ g', isBlank d = true := fun d member => g.blank d (by simp [feed, member])
  rw [dropBlanks_append blank, dropBlanks_of_solid (by simpa using solid), head?_cons]

theorem FormalIndex.mark_single (i : FormalIndex) : '\n' ∉ i.mark := by
  have visible := i.visible.symm
  cases slash : i.slash <;> simp [FormalIndex.mark, slash, visible]

/-- Within a binding, past the lines before it, a mark comes behind each line feed. -/
theorem mark_behind_feed (b : BindingText) {w : List Char}
    (feed : b.formal.chars ++ (b.gap.chars ++ ("=>".toList ++ b.body)) = u ++ '\n' :: w) (rest : List Char) :
    ∃ c ∈ ['(', '='], (dropBlanks (w ++ rest)).head? = some c := by
  obtain ⟨lead, ⟨name, index⟩, gap, body, single⟩ := b
  have arrow {u : List Char} (feed : gap.chars ++ ("=>".toList ++ body) = u ++ '\n' :: w) :
      ∃ c ∈ ['(', '='], (dropBlanks (w ++ rest)).head? = some c := by
    rcases feed_in_append feed with ⟨g, inGap, rfl⟩ | ⟨u, inBody⟩
    · exact ⟨'=', by simp, by rw [List.append_assoc]; exact head_behind_feed gap inGap (by decide) _⟩
    · exact absurd (inBody ▸ (by simp : '\n' ∈ u ++ '\n' :: w)) (by simpa using single)
  have named {u a : List Char} : name.chars ≠ u ++ '\n' :: a := fun inName =>
    name.not_mem (c := '\n') (by decide) (by simp [inName])
  cases index with
  | none =>
    rcases feed_in_append feed with ⟨_, inName, -⟩ | ⟨_, behind⟩
    · exact absurd inName named
    · exact arrow behind
  | some i =>
    rw [Formal.chars, List.append_assoc, List.append_assoc] at feed
    rcases feed_in_append feed with ⟨_, inName, -⟩ | ⟨_, behind⟩
    · exact absurd inName named
    rcases feed_in_append behind with ⟨g, inGap, rfl⟩ | ⟨_, behind⟩
    · exact ⟨'(', by simp, by rw [List.append_assoc]; exact head_behind_feed i.gap inGap (by decide) _⟩
    rcases feed_in_append behind with ⟨_, inMark, -⟩ | ⟨_, behind⟩
    · exact absurd (by simp [inMark]) i.mark_single
    · exact arrow behind

theorem Formal.exists_cons (f : Formal) : ∃ c cs, f.chars = c :: cs ∧ isWord c = true := by
  obtain ⟨c, letters, form⟩ := exists_cons_of_ne_nil f.name.nonempty
  have wordy := f.name.wordy c (by simp [form])
  unfold Formal.chars
  split
  · exact ⟨c, letters, form, wordy⟩
  · exact ⟨c, _, by rw [form, cons_append], wordy⟩

theorem BindingText.word_head (b : BindingText) (rest : List Char) :
    ∃ c, (dropBlanks (b.text ++ rest)).head? = some c ∧ isWord c = true := by
  obtain ⟨c, cs, form, wordy⟩ := b.formal.exists_cons
  refine ⟨c, ?_, wordy⟩
  rw [BindingText.text, List.append_assoc, dropBlanks_append b.lead.blank, form]
  exact congrArg head? (dropBlanks_of_solid (by simpa using isBlank_of_isWord wordy))

/-- Two bindings of which one begins within the other are the same but for the lines before them. -/
theorem same_of_inside {b' : BindingText} {place : Nat} (first : StandsAt text pos b)
    (second : StandsAt text place b') (after : pos ≤ place) (inside : place < pos + b.text.length)
    (shows : Shows m b) : Shows m b' := by
  obtain ⟨k, rfl⟩ := Nat.exists_eq_add_of_le after
  obtain ⟨starts, rest, here, feed⟩ := first
  have there : textFrom text (pos + k) = b.text.drop k ++ rest := by
    rw [textFrom_add, here, drop_append_of_le_length (by omega)]
  by_cases lead : k ≤ b.lead.chars.length
  · let later : BindingText := { b with lead := ⟨b.lead.chars.drop k, fun c member =>
      b.lead.blank c (mem_of_mem_drop member)⟩ }
    have again : StandsAt text (pos + k) later := by
      refine ⟨second.1, rest, ?_, feed⟩
      rw [there, BindingText.text, drop_append_of_le_length lead]
      rfl
    obtain ⟨m₁, found₁, -, shows₁⟩ := matchAt_of_standsAt again
    obtain ⟨m₂, found₂, -, shows₂⟩ := matchAt_of_standsAt second
    obtain rfl : m₁ = m₂ := some.inj (found₁.symm.trans found₂)
    exact ⟨shows.port.trans (shows₁.port.symm.trans shows₂.port), shows.bind.trans (shows₁.bind.symm.trans shows₂.bind)⟩
  · -- The later binding would begin behind a line feed of the first one, where only a mark can come.
    obtain ⟨front, split⟩ := mem_behindFeeds.mp ((lineStart_iff_feed here (by omega) (by omega)).mp second.1)
    have length := congrArg List.length split
    rw [List.length_append, List.length_cons, List.length_drop] at length
    rcases feed_in_append split with ⟨_, inLead, -⟩ | ⟨_, behind⟩
    · have short := congrArg List.length inLead
      rw [List.length_append, List.length_cons] at short
      omega
    · obtain ⟨c, marks, head⟩ := mark_behind_feed b behind rest
      obtain ⟨-, rest', begins, -⟩ := second
      obtain ⟨d, head', wordy⟩ := b'.word_head rest'
      rw [← begins, there, head] at head'
      obtain rfl := some.inj head'
      rcases (by simpa using marks : c = '(' ∨ c = '=') with rfl | rfl <;> exact absurd wordy (by decide)

theorem lt_size_of_standsAt (there : StandsAt text pos b) : pos < text.size := by
  obtain ⟨-, rest, here, -⟩ := there
  exact lt_size_of_textFrom here (by simp [BindingText.text])

theorem writes_iff : Writes cs b ↔ ∃ place, StandsAt cs.toArray place b := by
  have edge : LineStart cs.toArray 0 ↔ true = true := iff_of_true (Or.inl rfl) rfl
  have whole : textFrom cs.toArray 0 = cs ++ [] := by rw [textFrom_zero, append_nil]
  constructor
  · rintro ⟨tail, member, rest, here, feed⟩
    obtain ⟨i, inside, rfl⟩ := exists_drop_of_mem member
    have line := (lineStart_iff whole edge inside).mpr member
    rw [Nat.zero_add] at line
    exact ⟨i, line, rest, here, feed⟩
  · rintro ⟨i, there⟩
    have inside : i ≤ cs.length := Nat.le_of_lt (by simpa using lt_size_of_standsAt there)
    obtain ⟨line, rest, here, feed⟩ := there
    rw [← Nat.zero_add i] at line
    exact ⟨cs.drop i, (lineStart_iff whole edge inside).mp line, rest, here, feed⟩

theorem exists_match_of_writes (written : Writes cs b) : ∃ m ∈ bindingRows.matches_ (ofList cs), Shows m b := by
  obtain ⟨place, there⟩ := writes_iff.mp written
  have covered : ∀ place ≥ 0, ∀ b, StandsAt (ofList cs).toList.toArray place b →
      ∃ m ∈ bindingRows.matches_ (ofList cs), Shows m b := by
    refine Regex.matchesFrom_rec (motive := fun pos ms => ∀ place ≥ pos, ∀ b,
      StandsAt (ofList cs).toList.toArray place b → ∃ m ∈ ms, Shows m b)
      rfl (fun _ _ => Regex.stop_gt_of_matchAt (by decide)) ?beyond ?skip ?take (by omega)
    case beyond =>
      intro pos outside place after b there
      exact absurd (lt_size_of_standsAt there) (by omega)
    case skip =>
      intro pos ms fails ih place after b there
      refine ih place (Nat.lt_of_le_of_ne after ?_) b there
      rintro rfl
      obtain ⟨m, found, -⟩ := matchAt_of_standsAt there
      exact absurd (found.symm.trans fails) (some_ne_none m)
    case take =>
      intro pos m ms found ih place after b there
      obtain ⟨first, stands⟩ := standsAt_of_matchAt found
      obtain ⟨m', found', stop, shows⟩ := matchAt_of_standsAt stands
      obtain rfl : m = m' := some.inj (found.symm.trans found')
      by_cases inside : place < m.stop
      · exact ⟨m, mem_cons_self, same_of_inside stands there after (stop ▸ inside) shows⟩
      · obtain ⟨m', member, shows'⟩ := ih place (Nat.le_of_not_lt inside) b there
        exact ⟨m', mem_cons_of_mem m member, shows'⟩
  exact covered place (Nat.zero_le _) b (by rwa [toList_ofList])

theorem exists_writes_of_match (member : m ∈ bindingRows.matches_ (ofList cs)) :
    ∃ b, Writes cs b ∧ Shows m b := by
  have stood : ∀ m ∈ bindingRows.matches_ (ofList cs), ∃ b place,
      StandsAt (ofList cs).toList.toArray place b ∧ Shows m b := by
    refine Regex.matchesFrom_rec (motive := fun _ ms => ∀ m ∈ ms, ∃ b place,
      StandsAt (ofList cs).toList.toArray place b ∧ Shows m b)
      rfl (fun _ _ => Regex.stop_gt_of_matchAt (by decide)) ?beyond ?skip ?take (by omega)
    case beyond => simp
    case skip => exact fun _ _ _ ih => ih
    case take =>
      intro pos m ms found ih
      obtain ⟨b, stands⟩ := standsAt_of_matchAt found
      obtain ⟨m', found', -, shows⟩ := matchAt_of_standsAt stands
      obtain rfl : m = m' := some.inj (found.symm.trans found')
      exact forall_mem_cons.mpr ⟨⟨b, pos, stands, shows⟩, ih⟩
  obtain ⟨b, place, there, shows⟩ := stood m member
  rw [toList_ofList] at there
  exact ⟨b, writes_iff.mpr ⟨place, there⟩, shows⟩

theorem foldl_max_le_iff {a : Nat} {ns : List Nat} : ns.foldl max a ≤ w ↔ a ≤ w ∧ ∀ n ∈ ns, n ≤ w := by
  induction ns generalizing a with
  | nil => simp
  | cons n ns ih => simp [ih, Nat.max_le, and_assoc]

theorem columnWidth_le_iff {rows : List Match} {part : String} :
    columnWidth rows part ≤ w ↔ ∀ m ∈ rows, (Text.trim (m.named part)).length ≤ w := by
  simp [columnWidth, widest, foldl_max_le_iff]

theorem bindingWidth_le_iff {part : String} {width : BindingText → Nat}
    (shown : ∀ m b, Shows m b → (Text.trim (m.named part)).length = width b) :
    bindingWidth cs part ≤ w ↔ ∀ b, Writes cs b → width b ≤ w := by
  refine columnWidth_le_iff.trans ⟨fun all b written => ?_, fun all m member => ?_⟩
  · obtain ⟨m, member, shows⟩ := exists_match_of_writes written
    exact shown m b shows ▸ all m member
  · obtain ⟨b, written, shows⟩ := exists_writes_of_match member
    exact shown m b shows ▸ all b written

theorem portWidth_le_iff : bindingWidth cs "port" ≤ w ↔ ∀ b, Writes cs b → b.formal.chars.length ≤ w := by
  refine bindingWidth_le_iff fun m b shows => ?_
  rw [shows.port, trim_eq, toList_ofList, trimmed_of_isTrimmed b.formal.isTrimmed, length_ofList]

theorem bindWidth_le_iff : bindingWidth cs "bind" ≤ w ↔ ∀ b, Writes cs b → (cells b.body).value.length ≤ w := by
  refine bindingWidth_le_iff fun m b shows => ?_
  rw [shows.bind, trim_eq, toList_ofList, length_ofList]
  rfl

/-- A line is a binding with this formal name and this actual value. -/
def RowLine (l formal value : List Char) : Prop :=
  ∃ b : BindingText, b.text = l ∧ b.formal.chars = formal ∧ (cells b.body).value = value

/-- A line has nothing but a formal name. -/
def FormalLine (l formal : List Char) : Prop :=
  ∃ lead gap : Gap, ∃ f : Formal, l = lead.chars ++ (f.chars ++ gap.chars) ∧ f.chars = formal

/-- A line opens with the arrow before this actual value. -/
def ArrowLine (l value : List Char) : Prop :=
  ∃ lead : Gap, ∃ body, l = lead.chars ++ ("=>".toList ++ body) ∧ (cells body).value = value

def BlankLine (l : List Char) : Prop :=
  ∀ c ∈ l, isBlank c = true

/-- Behind blank lines a line opens with the arrow before this actual value. -/
def ArrowAhead (value : List Char) : List (List Char) → Prop
  | [] => False
  | l :: ls => ArrowLine l value ∨ BlankLine l ∧ ArrowAhead value ls

/-- This formal name is bound to this actual value on one line, or on two lines with blank lines between them. -/
def BoundIn (formal value : List Char) : List (List Char) → Prop
  | [] => False
  | l :: ls => RowLine l formal value ∨ FormalLine l formal ∧ ArrowAhead value ls ∨ BoundIn formal value ls

def opensGroup (l : List Char) : Bool :=
  (trimmed l).head? == some '('

section Lines

variable {l g : List Char} {ls : List (List Char)}

theorem unlines_eq_line (single : ∀ l ∈ ls, '\n' ∉ l) (here : Text.unlines ls = l ++ '\n' :: X)
    (visible : '\n' ∉ l) : ∃ ms, ls = l :: ms ∧ Text.unlines ms = X := by
  cases ls with
  | nil => simp at here
  | cons l' ms =>
    rw [unlines_cons] at here
    obtain ⟨rfl, behind⟩ := line_unique here (single l' mem_cons_self) (by simp [EndsLine]) visible
      (by simp [EndsLine])
    exact ⟨ms, rfl, (cons.inj behind).2⟩

theorem unlines_behind_feed {front : List Char} (single : ∀ l ∈ ls, '\n' ∉ l)
    (here : Text.unlines ls = front ++ '\n' :: X) :
    ∃ before ms, ls = before ++ ms ∧ Text.unlines ms = X ∧ Text.unlines before = front ++ ['\n'] := by
  induction ls generalizing front with
  | nil => simp at here
  | cons l ls ih =>
    by_cases feed : '\n' ∈ front
    · obtain ⟨first, more, rfl, visible⟩ := eq_append_cons_of_mem feed
      rw [List.append_assoc, List.cons_append] at here
      obtain ⟨ms, same, here⟩ := unlines_eq_line single here visible
      obtain ⟨rfl, rfl⟩ := cons.inj same
      obtain ⟨before, ms, rfl, there, whole⟩ := ih (fun l member => single l (mem_cons_of_mem _ member)) here
      exact ⟨l :: before, ms, rfl, there, by simp [whole]⟩
    · obtain ⟨ms, same, there⟩ := unlines_eq_line single here feed
      obtain ⟨rfl, rfl⟩ := cons.inj same
      exact ⟨[l], ls, rfl, there, by simp⟩

theorem unlines_peel (single : ∀ l ∈ ls, '\n' ∉ l) (lead : Gap) (here : Text.unlines ls = lead.chars ++ X) :
    ∃ before ms, ∃ g : Gap, ls = before ++ ms ∧ (∀ l ∈ before, BlankLine l) ∧ '\n' ∉ g.chars ∧
      Text.unlines ms = g.chars ++ X := by
  by_cases feed : '\n' ∈ lead.chars
  · -- The last line feed of the blanks is the first one of the blanks read backwards.
    obtain ⟨more, first, split, visible⟩ := eq_append_cons_of_mem (mem_reverse.mpr feed)
    have form : lead.chars = first.reverse ++ '\n' :: more.reverse := by
      rw [← reverse_reverse lead.chars, split]
      simp
    rw [form, List.append_assoc, List.cons_append] at here
    obtain ⟨before, ms, rfl, there, whole⟩ := unlines_behind_feed single here
    refine ⟨before, ms, ⟨more.reverse, fun c member => lead.blank c (by simp [form, mem_reverse.mp member])⟩, rfl,
      ?_, by simpa using visible, there⟩
    intro l member c inside
    refine lead.blank c ?_
    have : c ∈ Text.unlines before := mem_flatMap.mpr ⟨l, member, mem_append_left _ inside⟩
    rw [whole] at this
    rw [form]
    simp only [mem_append, mem_cons] at this ⊢
    tauto
  · exact ⟨[], ls, lead, rfl, by simp, feed, here⟩

theorem arrowAhead_append {before : List (List Char)} (blank : ∀ l ∈ before, BlankLine l)
    (ahead : ArrowAhead value ls) : ArrowAhead value (before ++ ls) := by
  induction before with
  | nil => exact ahead
  | cons l before ih =>
    rw [forall_mem_cons] at blank
    exact Or.inr ⟨blank.1, ih blank.2⟩

theorem boundIn_append (before : List (List Char)) (bound : BoundIn formal value ls) :
    BoundIn formal value (before ++ ls) := by
  induction before with
  | nil => exact bound
  | cons l before ih => exact Or.inr (Or.inr ih)

theorem arrowAhead_of_unlines {body : List Char} (single : ∀ l ∈ ls, '\n' ∉ l) (lead : Gap)
    (visible : '\n' ∉ body) (here : Text.unlines ls = lead.chars ++ ("=>".toList ++ (body ++ '\n' :: rest))) :
    ArrowAhead (cells body).value ls := by
  obtain ⟨before, ms, g, rfl, blank, plain, there⟩ := unlines_peel single lead here
  obtain ⟨ms, rfl, -⟩ := unlines_eq_line (l := g.chars ++ ("=>".toList ++ body))
    (fun l member => single l (mem_append_right _ member)) (by simpa using there) (by simp [plain, visible])
  exact arrowAhead_append blank (Or.inl ⟨g, body, rfl, rfl⟩)

theorem opensGroup_of_unlines (single : ∀ l ∈ ls, '\n' ∉ l) (lead : Gap)
    (here : Text.unlines ls = lead.chars ++ '(' :: rest) : ∃ l ∈ ls, opensGroup l = true := by
  obtain ⟨before, ms, g, rfl, -, plain, there⟩ := unlines_peel single lead here
  cases ms with
  | nil => simp at there
  | cons l ms =>
    refine ⟨l, by simp, ?_⟩
    rw [unlines_cons] at there
    rcases append_eq_append_iff.mp there with ⟨g', form, behind⟩ | ⟨l', rfl, behind⟩
    · -- The line would end within the blanks before the parenthesis.
      cases g' with
      | nil => simp at behind
      | cons c g' =>
        obtain rfl := (cons.inj behind).1
        exact absurd (by simp [form]) plain
    · cases l' with
      | nil => simp at behind
      | cons c l' =>
        rw [opensGroup, trimmed_append_left g.blank, ← (cons.inj behind).1, trimmed_cons (by decide)]
        rfl

theorem formal_single (f : Formal) {g : Gap} (single : ∀ l ∈ ls, '\n' ∉ l)
    (closed : ∀ l ∈ ls, opensGroup l = false)
    (plain : '\n' ∉ g.chars) (here : Text.unlines ls = g.chars ++ (f.chars ++ rest)) : '\n' ∉ f.chars := by
  obtain ⟨name, index⟩ := f
  have named : '\n' ∉ name.chars := name.not_mem (by decide)
  cases index with
  | none => exact named
  | some i =>
    rw [Formal.chars, List.append_assoc, List.append_assoc] at here
    simp only [Formal.chars, mem_append, named, i.mark_single, or_false, false_or]
    intro feed
    obtain ⟨first, more, split, solid⟩ := eq_append_cons_of_mem feed
    obtain ⟨ms, rfl, behind⟩ := unlines_eq_line (l := g.chars ++ (name.chars ++ first)) single
      (by simpa [split] using here) (by simp [plain, named, solid])
    obtain ⟨l, member, opens⟩ := opensGroup_of_unlines (fun l member => single l (mem_cons_of_mem _ member))
      ⟨more, fun c member => i.gap.blank c (by simp [split, member])⟩ behind
    exact absurd opens (by simp [closed l (mem_cons_of_mem _ member)])

theorem boundIn_of_unlines (b : BindingText) (single : ∀ l ∈ ls, '\n' ∉ l)
    (closed : ∀ l ∈ ls, opensGroup l = false)
    (here : Text.unlines ls = b.text ++ '\n' :: rest) : BoundIn b.formal.chars (cells b.body).value ls := by
  obtain ⟨lead, f, gap, body, visible⟩ := b
  simp only [BindingText.text, List.append_assoc] at here
  obtain ⟨before, ms, g, rfl, -, plain, there⟩ := unlines_peel single lead here
  have later (l : List Char) (member : l ∈ ms) : '\n' ∉ l := single l (mem_append_right _ member)
  have formal := formal_single f later (fun l member => closed l (mem_append_right _ member)) plain there
  refine boundIn_append before ?_
  by_cases feed : '\n' ∈ gap.chars
  · obtain ⟨first, more, split, solid⟩ := eq_append_cons_of_mem feed
    obtain ⟨ms, rfl, behind⟩ := unlines_eq_line (l := g.chars ++ (f.chars ++ first)) later
      (by simpa [split] using there) (by simp [plain, formal, solid])
    refine Or.inr (Or.inl ⟨⟨g, ⟨first, fun c member => gap.blank c (by simp [split, member])⟩, f, rfl, rfl⟩, ?_⟩)
    exact arrowAhead_of_unlines (fun l member => later l (mem_cons_of_mem _ member))
      ⟨more, fun c member => gap.blank c (by simp [split, member])⟩ visible (by simpa using behind)
  · obtain ⟨ms, rfl, -⟩ := unlines_eq_line (l := BindingText.text ⟨g, f, gap, body, visible⟩) later
      (by simpa [BindingText.text] using there) (by simp [BindingText.text, plain, formal, feed, visible])
    exact Or.inl ⟨_, rfl, rfl, rfl⟩

theorem blank_of_lines {a b : List Char} (first : ∀ c ∈ a, isBlank c = true) (second : ∀ c ∈ b, isBlank c = true) :
    ∀ c ∈ a ++ '\n' :: b, isBlank c = true :=
  forall_mem_append.mpr ⟨first, forall_mem_cons.mpr ⟨by decide, second⟩⟩

theorem exists_arrow_of_arrowAhead (single : ∀ l ∈ ls, '\n' ∉ l) (ahead : ArrowAhead value ls) :
    ∃ g : Gap, ∃ body rest, Text.unlines ls = g.chars ++ ("=>".toList ++ (body ++ '\n' :: rest)) ∧ '\n' ∉ body ∧
      (cells body).value = value := by
  induction ls with
  | nil => exact ahead.elim
  | cons l ls ih =>
    rw [forall_mem_cons] at single
    rcases ahead with ⟨lead, body, rfl, shown⟩ | ⟨blank, later⟩
    · exact ⟨lead, body, Text.unlines ls, by simp, fun inside => single.1 (by simp [inside]), shown⟩
    · obtain ⟨g, body, rest, there, visible, shown⟩ := ih single.2 later
      exact ⟨⟨l ++ '\n' :: g.chars, blank_of_lines blank g.blank⟩, body, rest, by simp [there], visible, shown⟩

theorem exists_binding_of_boundIn (single : ∀ l ∈ ls, '\n' ∉ l)
    (bound : BoundIn formal value ls) : ∃ before ms, ∃ b : BindingText, ∃ rest, ls = before ++ ms ∧
      Text.unlines ms = b.text ++ '\n' :: rest ∧ b.formal.chars = formal ∧ (cells b.body).value = value := by
  induction ls with
  | nil => exact bound.elim
  | cons l ls ih =>
    rw [forall_mem_cons] at single
    rcases bound with ⟨b, rfl, name, shown⟩ | ⟨⟨lead, gap, f, rfl, name⟩, ahead⟩ | later
    · exact ⟨[], _, b, Text.unlines ls, rfl, by simp, name, shown⟩
    · obtain ⟨g, body, rest, there, visible, shown⟩ := exists_arrow_of_arrowAhead single.2 ahead
      refine ⟨[], _, ⟨lead, f, ⟨gap.chars ++ '\n' :: g.chars, blank_of_lines gap.blank g.blank⟩, body, visible⟩, rest,
        rfl, ?_, name, shown⟩
      simp [BindingText.text, there]
    · obtain ⟨before, ms, b, rest, rfl, there, name, shown⟩ := ih single.2 later
      exact ⟨l :: before, ms, b, rest, rfl, there, name, shown⟩

theorem cut_last_feed {front : List Char} (ends : front ++ '\n' :: X = cs ++ ['\n']) :
    ∃ rest, cs = front ++ rest ∧ EndsLine rest := by
  rcases eq_nil_or_concat X with rfl | ⟨init, c, rfl⟩
  · exact ⟨[], by simpa using (append_inj_left' ends rfl).symm, by simp [EndsLine]⟩
  · have split : front ++ '\n' :: init ++ [c] = cs ++ ['\n'] := by simpa using ends
    exact ⟨'\n' :: init, (append_inj_left' split rfl).symm, by simp [EndsLine]⟩

/-- The bindings that are written in a text are those that are found among its lines. -/
theorem boundIn_iff (lines : Text.unlines ls = cs ++ ['\n']) (single : ∀ l ∈ ls, '\n' ∉ l)
    (closed : ∀ l ∈ ls, opensGroup l = false) : BoundIn formal value ls ↔
      ∃ b, Writes cs b ∧ b.formal.chars = formal ∧ (cells b.body).value = value := by
  constructor
  · intro bound
    obtain ⟨before, ms, b, rest, rfl, there, name, shown⟩ := exists_binding_of_boundIn single bound
    refine ⟨b, ?_, name, shown⟩
    rw [unlines_append, there, ← List.append_assoc] at lines
    obtain ⟨rest', rfl, feed⟩ := cut_last_feed lines
    refine ⟨b.text ++ rest', ?_, rest', rfl, feed⟩
    rw [mem_lineTails, mem_behindFeeds]
    rcases eq_nil_or_concat before with rfl | ⟨init, l, rfl⟩
    · exact Or.inl ⟨rfl, by simp⟩
    · exact Or.inr ⟨Text.unlines init ++ l, by simp [unlines_append]⟩
  · rintro ⟨b, ⟨tail, member, rest, rfl, feed⟩, rfl, rfl⟩
    obtain ⟨rest', ends⟩ : ∃ rest', rest ++ ['\n'] = '\n' :: rest' := by
      cases rest with
      | nil => exact ⟨[], rfl⟩
      | cons c rest => exact ⟨rest ++ ['\n'], by rw [feed c rfl]; rfl⟩
    rcases mem_lineTails.mp member with ⟨-, rfl⟩ | behind
    · exact boundIn_of_unlines b single closed (by rw [lines, List.append_assoc, ends])
    · obtain ⟨front, rfl⟩ := mem_behindFeeds.mp behind
      have split : Text.unlines ls = front ++ '\n' :: (b.text ++ '\n' :: rest') := by simpa [ends] using lines
      obtain ⟨before, ms, rfl, there, -⟩ := unlines_behind_feed single split
      exact boundIn_append before (boundIn_of_unlines b (fun l member => single l (mem_append_right _ member))
        (fun l member => closed l (mem_append_right _ member)) there)

end Lines

end VhdlWorkbench.Layout

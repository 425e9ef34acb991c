import VhdlWorkbench.Proofs.Words

/-!
Where the forms of declarations can match: at the start of a line, behind the form's own word.
-/

namespace VhdlWorkbench.Declaration

open Pattern Pattern.Node Design List Text
open String (ofList)
open Regex (ofNode matchAt_front)

variable {word : String} {name : Identifier}

variable {text : Array Char} {pos : Nat} {o : Options} {t t' : Thread} {m : Match} {names : Node}

def objectWords : List String :=
  ["signal", "variable"]

theorem objectWords_lower : ∀ word ∈ objectWords, Lower word ∧ word ≠ "" := by
  decide

theorem reads_tag [Folds o] (word : String) {slot : Nat} {name : Option String} (t t' : Thread)
    (reached : Reaches text (.capture slot name (lit word)) o t t') :
    ∃ word' ∈ [word], ∃ w, Reads word' w ∧ textFrom text t.pos = w ++ textFrom text t'.pos := by
  obtain ⟨u, letters, rfl⟩ := reached
  exact reads_word word t u letters

theorem reads_objectWord (t t' : Thread)
    (reached : Reaches text (.capture 1 (some "tag") (choice [lit "signal", lit "variable"])) lineOptions t t') :
    ∃ word ∈ objectWords, ∃ w, Reads word w ∧ textFrom text t.pos = w ++ textFrom text t'.pos := by
  obtain ⟨_, signal | other, rfl⟩ := reached
  · obtain ⟨w, reads, here, -⟩ := reaches_word signal
    exact ⟨"signal", by decide, w, reads, here⟩
  · obtain ⟨w, reads, here, -⟩ := reaches_word other
    exact ⟨"variable", by decide, w, reads, here⟩

theorem opening_of_signal (found : (ofNode lineOptions (signalForm names)).matchAt text pos false = some m) :
    Opening objectWords text pos := by
  obtain ⟨_, opens⟩ := matchAt_front 4 found
  exact opening_of_tag rfl reads_objectWord objectWords_lower blank_behind opens

theorem opening_of_constant (found : (ofNode lineOptions (constantForm names)).matchAt text pos false = some m) :
    Opening ["constant"] text pos := by
  obtain ⟨_, opens⟩ := matchAt_front 8 found
  exact opening_of_tag rfl (reads_tag "constant") (by decide) blank_behind opens

theorem opening_of_record (found : (ofNode blockOptions (recordForm names)).matchAt text pos false = some m) :
    Opening ["type"] text pos := by
  obtain ⟨_, opens⟩ := matchAt_front 8 found
  exact opening_of_tag rfl (reads_tag "type") (by decide) blank_behind opens

theorem opening_of_alias (found : (ofNode lineOptions (aliasForm names)).matchAt text pos false = some m) :
    Opening ["alias"] text pos := by
  obtain ⟨_, opens⟩ := matchAt_front 9 found
  exact opening_of_tag rfl (reads_tag "alias") (by decide) gap_behind opens

theorem opening_of_externalAlias
    (found : (ofNode lineOptions (externalAliasForm names)).matchAt text pos false = some m) :
    Opening ["alias"] text pos := by
  obtain ⟨_, opens⟩ := matchAt_front 9 found
  exact opening_of_tag rfl (reads_tag "alias") (by decide) gap_behind opens

/-- What a name among others has passed: a comma at most, blanks, the name itself between word edges, and
characters of a list. -/
theorem reaches_nameInList (reached : Reaches text (nameInList word) lineOptions t t') :
    ∃ (comma : List Char) (g : Gap) (w more : List Char),
      (∀ c ∈ comma, c = ',') ∧ Reads word w ∧
      (∀ c ∈ more, isBlank c = true ∨ isWord c = true ∨ c = ',') ∧
      textFrom text t.pos = comma ++ (g.chars ++ (w ++ (more ++ textFrom text t'.pos))) ∧
      Anchor.holds text lineOptions .wordEdge (t.pos + (comma ++ g.chars).length) = true ∧
      Anchor.holds text lineOptions .wordEdge (t.pos + (comma ++ g.chars).length + w.length) = true := by
  obtain ⟨_, ⟨_, ⟨_, ⟨_, ⟨_, comma, blanks⟩, opened, rfl⟩, pasted⟩, closed, rfl⟩, tail⟩ := reached
  obtain ⟨cs, here, commas, -, -, rfl⟩ := reaches_run comma
  obtain ⟨g, atGap, -, rfl⟩ := reaches_gap blanks
  obtain ⟨w, reads, atName, rfl⟩ := reaches_pasted pasted
  have marks : ∀ c ∈ cs, c = ',' := fun c member =>
    (charAccepts_mark (by decide)).mp (commas c member)
  simp only [length_append, ← Nat.add_assoc]
  rcases reaches_optional tail with rfl | others
  · refine ⟨cs, g, w, [], marks, reads, forall_mem_nil _, ?_, opened, closed⟩
    rw [nil_append, here, atGap, atName]
  · have passed : Reaches text (many1 listChar) lineOptions _ t' := others
    obtain ⟨more, behind, listed, -, -, rfl⟩ := reaches_run passed
    refine ⟨cs, g, w, more, marks, reads, ?_, ?_, opened, closed⟩
    · exact fun c member => (listChar_accepts_iff c).mp (listed c member)
    · rw [here, atGap, atName, behind]

theorem reads_of_nameInList {first : Identifier} {g : Gap} {rest : List Char}
    (here : textFrom text t.pos = g.chars ++ (first.chars ++ rest))
    (stops : ∀ c, rest.head? = some c → endsWord c = true)
    (reached : Reaches text (nameInList (ofList name.chars)) lineOptions t t') :
    Reads (ofList name.chars) first.chars := by
  obtain ⟨comma, g', w, more, marks, reads, -, there, -, closed⟩ := reaches_nameInList reached
  obtain ⟨nonempty, unended⟩ := Identifier.unended_of_reads reads
  have solid : Stops isBlank (w ++ (more ++ textFrom text t'.pos)) := by
    intro c head
    rw [head?_append_of_ne_nil _ nonempty] at head
    exact isBlank_of_unended (unended c (mem_of_head? head))
  -- the list does not begin with a comma
  obtain rfl : comma = [] := by
    cases comma with
    | nil => rfl
    | cons c comma =>
      obtain rfl := marks c mem_cons_self
      exact absurd (by rw [← here, there]; rfl) (first.head_ne g rest (c := ',') (by decide) (by decide))
  rw [nil_append] at there closed
  obtain ⟨-, tails⟩ := cut_unique (p := isBlank) (here.symm.trans there) g.blank
    (first.blankless_head rest) g'.blank solid
  rcases append_eq_append_iff.mp tails with ⟨cs, longer, behind⟩ | ⟨cs, shorter, behind⟩
  · cases cs with
    | nil => rwa [longer, append_nil] at reads
    | cons c cs =>
      -- the name would go on behind the first name, with a character that no name has
      have outside := stops c (by rw [behind]; rfl)
      rw [unended c (by simp [longer])] at outside
      exact absurd outside Bool.false_ne_true
  · cases cs with
    | nil =>
      rw [append_nil] at shorter
      rwa [shorter]
    | cons c cs =>
      -- the name would end inside the first name, where there is no edge
      have atWord : textFrom text (t.pos + g'.chars.length) = w ++ (more ++ textFrom text t'.pos) :=
        textFrom_append there
      have wordy : ∀ d ∈ w, isWord d = true := fun d member => first.wordy d (by simp [shorter, member])
      have next := (wordEdge_behind_iff atWord nonempty wordy).mp closed c (by rw [behind]; rfl)
      rw [first.wordy c (by simp [shorter])] at next
      exact absurd next Bool.noConfusion

def objectForms (word : String) : List Node :=
  [signalForm (nameInList word), portForm (nameInList word), constantForm (nameInList word),
    genericForm (nameInList word)]

/-- A list of names that holds the word passes from a place to a colon. -/
def PassesList (word : String) (text : Array Char) (pos : Nat) : Prop :=
  ∃ t t' rest, t.pos = pos ∧ Reaches text (nameInList word) lineOptions t t' ∧ textFrom text t'.pos = ':' :: rest

theorem passes_list {slot : Nat}
    (reached : Reaches text (.capture slot (some "name") (nameInList word) ++ lit ":") lineOptions t t') :
    PassesList word text t.pos := by
  obtain ⟨_, ⟨_, listed, rfl⟩, colon⟩ := reached
  exact ⟨_, _, _, rfl, listed, (reaches_mark (c := ':') rfl (by decide) colon).1⟩

theorem passes_of_port
    (found : (ofNode lineOptions (portForm (nameInList word))).matchAt text pos false = some m) :
    LineStart text pos ∧ PassesList word text pos := by
  obtain ⟨_, _, ⟨_, ⟨line, rfl⟩, listed⟩, colon⟩ := matchAt_front 4 found
  exact ⟨(lineStart_holds_iff rfl _).mp line, passes_list ⟨_, listed, colon⟩⟩

theorem passes_of_generic
    (found : (ofNode lineOptions (genericForm (nameInList word))).matchAt text pos false = some m) :
    LineStart text pos ∧ PassesList word text pos := by
  obtain ⟨_, _, ⟨_, ⟨line, rfl⟩, listed⟩, colon⟩ := matchAt_front 3 found
  exact ⟨(lineStart_holds_iff rfl _).mp line, passes_list ⟨_, listed, colon⟩⟩

/-- Behind blanks, a word and one more blank, a list of names that holds the word passes to a colon. -/
def PassesTag (word : String) (text : Array Char) (pos : Nat) : Prop :=
  ∃ (g : Gap) (w : List Char) (b : Char) (q : Nat), (∀ c ∈ w, isWord c = true) ∧ isBlank b = true ∧
    textFrom text pos = g.chars ++ (w ++ b :: textFrom text q) ∧ PassesList word text q

theorem passes_tag {words : List String} {tag : Node} (lower : ∀ word ∈ words, Lower word ∧ word ≠ "")
    (reads : ∀ u u', Reaches text tag lineOptions u u' →
      ∃ word ∈ words, ∃ w, Reads word w ∧ textFrom text u.pos = w ++ textFrom text u'.pos)
    (reached : Reaches text (start ++ gap ++ tag ++ blank ++ .capture 2 (some "name") (nameInList word) ++
      lit ":") lineOptions t t') : PassesTag word text t.pos := by
  obtain ⟨_, ⟨u, ⟨_, toTag, last⟩, listed⟩, colon⟩ := reached
  obtain ⟨-, g, w, ⟨tag, member, read⟩, here⟩ := reaches_tag rfl reads toTag
  obtain ⟨b, blank, atBlank, -⟩ := reaches_blank last
  rw [atBlank] at here
  exact ⟨g, w, b, u.pos, read.wordy (lower tag member).1, blank, here, passes_list ⟨_, listed, colon⟩⟩

theorem passes_of_signal
    (found : (ofNode lineOptions (signalForm (nameInList word))).matchAt text pos false = some m) :
    PassesTag word text pos := by
  obtain ⟨_, passed⟩ := matchAt_front 2 found
  exact passes_tag objectWords_lower reads_objectWord passed

theorem passes_of_constant
    (found : (ofNode lineOptions (constantForm (nameInList word))).matchAt text pos false = some m) :
    PassesTag word text pos := by
  obtain ⟨_, passed⟩ := matchAt_front 6 found
  exact passes_tag (by decide) (reads_tag "constant") passed

/-- A colon comes before every semicolon, and not only blanks come before it. -/
def ColonAhead (cs : List Char) : Prop :=
  ∃ x rest, cs = x ++ ':' :: rest ∧ (∀ c ∈ x, c ≠ ';' ∧ c ≠ ':') ∧ ∃ c ∈ x, isBlank c = false

theorem unmarked {c : Char} (p : Char → Bool) (semicolon : p ';' = false) (colon : p ':' = false) (kind : p c = true) :
    c ≠ ';' ∧ c ≠ ':' := by
  constructor
  · rintro rfl
    exact Bool.noConfusion (semicolon.symm.trans kind)
  · rintro rfl
    exact Bool.noConfusion (colon.symm.trans kind)

theorem unmarked_of_word {c : Char} (wordy : isWord c = true) : c ≠ ';' ∧ c ≠ ':' :=
  unmarked isWord (by decide) (by decide) wordy

theorem unmarked_of_blank {c : Char} (blank : isBlank c = true) : c ≠ ';' ∧ c ≠ ':' :=
  unmarked isBlank (by decide) (by decide) blank

theorem colonAhead_of_passes (passes : PassesList (ofList name.chars) text pos) :
    ColonAhead (textFrom text pos) := by
  obtain ⟨t, t', rest, rfl, listed, behind⟩ := passes
  obtain ⟨comma, g, w, more, marks, reads, others, here, -⟩ := reaches_nameInList listed
  obtain ⟨nonempty, unended⟩ := Identifier.unended_of_reads reads
  obtain ⟨d, ds, letters⟩ := exists_cons_of_ne_nil nonempty
  refine ⟨comma ++ (g.chars ++ (w ++ more)), rest, by rw [here, behind]; simp, ?_, d, by simp [letters], ?_⟩
  · intro c member
    simp only [mem_append] at member
    rcases member with first | blank | letter | other
    · rw [marks c first]
      decide
    · exact unmarked_of_blank (g.blank c blank)
    · exact unmarked (fun c => !endsWord c) (by decide) (by decide) (by simp [unended c letter])
    · rcases others c other with blank | wordy | rfl
      · exact unmarked_of_blank blank
      · exact unmarked_of_word wordy
      · decide
  · exact isBlank_of_unended (unended d (by simp [letters]))

theorem colonAhead_of_object {form : Node} (listed : form ∈ objectForms (ofList name.chars))
    (found : (ofNode lineOptions form).matchAt text pos false = some m) : ColonAhead (textFrom text pos) := by
  have tagged (passed : PassesTag (ofList name.chars) text pos) : ColonAhead (textFrom text pos) := by
    obtain ⟨g, w, b, q, wordy, blank, here, passes⟩ := passed
    obtain ⟨x, rest, behind, unmarked, d, inside, solid⟩ := colonAhead_of_passes passes
    refine ⟨g.chars ++ (w ++ b :: x), rest, by rw [here, behind]; simp, ?_, d, by simp [inside], solid⟩
    intro c member
    simp only [mem_append, mem_cons] at member
    rcases member with lead | letter | rfl | later
    · exact unmarked_of_blank (g.blank c lead)
    · exact unmarked_of_word (wordy c letter)
    · exact unmarked_of_blank blank
    · exact unmarked c later
  simp only [objectForms, mem_cons, not_mem_nil, or_false] at listed
  rcases listed with rfl | rfl | rfl | rfl
  · exact tagged (passes_of_signal found)
  · exact colonAhead_of_passes (passes_of_port found).2
  · exact tagged (passes_of_constant found)
  · exact colonAhead_of_passes (passes_of_generic found).2

def listWords : List String :=
  ["signal", "variable", "constant"]

theorem word_of_object {w : Identifier} {g : Gap} {rest : List Char} {form : Node}
    (listed : form ∈ objectForms (ofList name.chars))
    (found : (ofNode lineOptions form).matchAt text pos false = some m)
    (here : textFrom text pos = g.chars ++ (w.chars ++ rest)) (stops : ∀ c, rest.head? = some c → endsWord c = true) :
    Reads (ofList name.chars) w.chars ∨ ∃ word ∈ listWords, Reads word w.chars := by
  have wordless : Stops isWord rest := fun c head =>
    isWord_of_endsWord (stops c head)
  simp only [objectForms, mem_cons, not_mem_nil, or_false] at listed
  rcases listed with rfl | rfl | rfl | rfl
  · obtain ⟨word, member, reads⟩ := reads_of_opening (opening_of_signal found) here wordless
    exact Or.inr ⟨word, mem_append_left ["constant"] member, reads⟩
  · obtain ⟨-, t, t', _, rfl, reached, -⟩ := passes_of_port found
    exact Or.inl (reads_of_nameInList here stops reached)
  · obtain ⟨word, member, reads⟩ := reads_of_opening (opening_of_constant found) here wordless
    exact Or.inr ⟨word, mem_append_right ["signal", "variable"] member, reads⟩
  · obtain ⟨-, t, t', _, rfl, reached, -⟩ := passes_of_generic found
    exact Or.inl (reads_of_nameInList here stops reached)

end VhdlWorkbench.Declaration

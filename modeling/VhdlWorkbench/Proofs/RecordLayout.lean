import VhdlWorkbench.Proofs.FormOpenings
import VhdlWorkbench.Proofs.TextCuts

/-!
Record types with their layout, and what is taken as the content of a record.
-/

namespace VhdlWorkbench.Design

open Pattern Pattern.Node Declaration List Text

/-- A field of a record up to the blanks behind its semicolon. -/
structure RecordField where
  name : Identifier
  afterName : Gap
  afterColon : Gap
  /-- The type as it is written, up to the semicolon. -/
  type : List Char
  typed : type ≠ []
  opens : ∀ c, type.head? = some c → isBlank c = false
  unmarked : ∀ c ∈ type, c ≠ ';' ∧ c ≠ ':'
  after : Gap

namespace RecordField

def declaration (f : RecordField) : List Char :=
  f.name.chars ++ (f.afterName.chars ++ ':' :: (f.afterColon.chars ++ f.type))

def text (f : RecordField) : List Char :=
  f.declaration ++ ';' :: f.after.chars

theorem not_mem_declaration (f : RecordField) : ';' ∉ f.declaration := by
  simp only [declaration, mem_append, mem_cons, not_or]
  exact ⟨f.name.not_mem (by decide), f.afterName.not_mem (by decide), by decide, f.afterColon.not_mem (by decide),
    fun member => (f.unmarked _ member).1 rfl⟩

end RecordField

/-- A record type. Its head stands on one line. -/
structure RecordLayout where
  name : Identifier
  afterRecord : Space
  fields : List RecordField
  nonempty : fields ≠ []
  afterEnd : Space

namespace RecordLayout

def head (r : RecordLayout) : List Char :=
  "type ".toList ++ (r.name.chars ++ " is record".toList)

def body (r : RecordLayout) : List Char :=
  r.afterRecord.chars ++ r.fields.flatMap RecordField.text

def closing (r : RecordLayout) : List Char :=
  "end".toList ++ (r.afterEnd.chars ++ "record".toList)

def text (r : RecordLayout) : List Char :=
  r.head ++ (r.body ++ r.closing)

theorem head_append (r : RecordLayout) (rest : List Char) :
    r.head ++ rest =
      "type".toList ++ ' ' :: (r.name.chars ++ ([' '] ++ ("is".toList ++ ([' '] ++ ("record".toList ++ rest))))) := by
  unfold head
  rw [append_assoc, append_assoc]
  rfl

theorem not_mem_head (r : RecordLayout) {c : Char} (mark : isWord c = false) (solid : c ≠ ' ') : c ∉ r.head := by
  have wordy {letters : List Char} (each : ∀ d ∈ letters, isWord d = true ∨ d = ' ') : c ∉ letters := by
    intro member
    rcases each c member with word | space
    · rw [word] at mark
      exact Bool.noConfusion mark
    · exact solid space
  unfold head
  simp only [mem_append, not_or]
  exact ⟨wordy (by decide), r.name.not_mem mark, wordy (by decide)⟩

theorem closing_unmarked (r : RecordLayout) : ∀ c ∈ r.closing, c ≠ ';' ∧ c ≠ ':' := by
  intro c member
  simp only [closing, mem_append] at member
  rcases member with letter | blank | letter
  · revert c
    decide
  · exact unmarked_of_blank (r.afterEnd.blank c blank)
  · revert c
    decide

end RecordLayout

section Cuts

variable {p : PlaceKind} (stops : StopsAt p ';')
  (solid : ∀ inside c rest, isBlank c = true → p inside (c :: rest) = false)
include stops solid

theorem cutBefore_fields {fields : List RecordField} (clear : ∀ f ∈ fields, occurs p false f.declaration = false)
    (rest : List Char) :
    cutBefore p false (fields.flatMap RecordField.text ++ rest) =
      fields.flatMap RecordField.text ++ cutBefore p false rest := by
  induction fields with
  | nil => rfl
  | cons f fields ih =>
    rw [forall_mem_cons] at clear
    simp only [flatMap_cons, RecordField.text, append_assoc, cons_append]
    rw [cutBefore_mark stops (by decide), clear.1, if_neg Bool.false_ne_true, cutBefore_gap solid, ih clear.2]

/-- Otherwise the text is cut inside a field, and has fewer semicolons than fields. -/
theorem count_cutBefore_fields {fields : List RecordField} (found : ∃ f ∈ fields, occurs p false f.declaration = true)
    (rest : List Char) :
    (cutBefore p false (fields.flatMap RecordField.text ++ rest)).count ';' < fields.length := by
  induction fields with
  | nil => simp at found
  | cons f fields ih =>
    simp only [flatMap_cons, RecordField.text, append_assoc, cons_append]
    rw [cutBefore_mark stops (by decide)]
    split
    · have none : (cutBefore p false f.declaration).count ';' = 0 :=
        count_eq_zero_of_not_mem fun member => f.not_mem_declaration (mem_of_mem_cutBefore member)
      rw [none]
      exact Nat.zero_lt_succ _
    · next clear =>
      have later : ∃ f ∈ fields, occurs p false f.declaration = true := by
        obtain ⟨f', member, inside⟩ := found
        rcases mem_cons.mp member with rfl | other
        · exact absurd inside clear
        · exact ⟨f', other, inside⟩
      have none : f.declaration.count ';' = 0 := count_eq_zero_of_not_mem f.not_mem_declaration
      have blank : f.after.chars.count ';' = 0 := count_eq_zero_of_not_mem (f.after.not_mem (by decide))
      rw [cutBefore_gap solid, count_append, count_cons_self, count_append, none, blank,
        length_cons]
      have fewer := ih later
      omega

theorem length_cutBefore_fields_lt (fields : List RecordField) {rest : List Char} (found : p false rest = true)
    (nonempty : rest ≠ []) :
    (cutBefore p false (fields.flatMap RecordField.text ++ rest)).length <
      (fields.flatMap RecordField.text ++ rest).length := by
  induction fields with
  | nil =>
    rw [flatMap_nil, nil_append, cutBefore_eq_nil found]
    exact length_pos_iff.mpr nonempty
  | cons f fields ih =>
    simp only [flatMap_cons, RecordField.text, append_assoc, cons_append]
    rw [cutBefore_mark stops (by decide)]
    split
    · have shorter := length_cutBefore_le p false f.declaration
      simp only [length_append, length_cons]
      omega
    · rw [cutBefore_gap solid]
      simp only [length_append, length_cons] at ih ⊢
      omega

end Cuts

/-- The letters of `end` and `record` stand at the beginning of a text, with blanks between them. -/
def opensEnd (cs : List Char) : Bool :=
  decide (Reads "end" (cs.take 3)) && (cs.drop 3).head?.any isBlank &&
    decide (Reads "record" ((dropBlanks (cs.drop 3)).take 6))

/-- The letters of `end` and `record`, with blanks between them. -/
structure EndMark where
  word : List Char
  isEnd : Reads "end" word
  between : Space
  last : List Char
  isRecord : Reads "record" last

namespace EndMark

def chars (e : EndMark) : List Char :=
  e.word ++ (e.between.chars ++ e.last)

def first (e : EndMark) : Identifier :=
  e.isEnd.identifier (by decide) (by decide)

def second (e : EndMark) : Identifier :=
  e.isRecord.identifier (by decide) (by decide)

theorem free (e : EndMark) : ';' ∉ e.chars := by
  simp only [chars, mem_append, not_or]
  exact ⟨e.first.not_mem (by decide), e.between.not_mem (by decide), e.second.not_mem (by decide)⟩

theorem nonempty (e : EndMark) : e.chars ≠ [] := by
  intro empty
  exact e.first.nonempty (append_eq_nil_iff.mp empty).1

theorem closes (e : EndMark) : ∀ c, e.chars.getLast? = some c → isBlank c = false := by
  intro c last
  have letters : e.last ≠ [] := e.second.nonempty
  rw [chars, ← append_assoc, getLast?_append_of_ne_nil _ letters] at last
  exact isBlank_of_isWord (e.second.wordy c (mem_of_getLast? last))

end EndMark

theorem opensEnd_iff {cs : List Char} : opensEnd cs = true ↔ ∃ (e : EndMark) (rest : List Char), cs = e.chars ++ rest := by
  constructor
  · intro opens
    simp only [opensEnd, Bool.and_eq_true, decide_eq_true_eq, Option.any_eq_true] at opens
    obtain ⟨⟨first, b, head, blank⟩, second⟩ := opens
    have nonempty : (cs.drop 3).takeWhile isBlank ≠ [] := by
      cases rest : cs.drop 3 with
      | nil => simp [rest] at head
      | cons c rest' =>
        rw [rest, head?_cons] at head
        obtain rfl := Option.some.inj head
        simp [blank]
    refine ⟨⟨cs.take 3, first, ⟨⟨(cs.drop 3).takeWhile isBlank, fun c => mem_takeWhile_imp⟩, nonempty⟩, _,
      second⟩, (dropBlanks (cs.drop 3)).drop 6, ?_⟩
    simp only [EndMark.chars, append_assoc]
    rw [take_append_drop, dropBlanks, takeWhile_append_dropWhile, take_append_drop]
  · rintro ⟨e, rest, rfl⟩
    have length : e.word.length = 3 := e.isEnd.length_eq
    have length' : e.last.length = 6 := e.isRecord.length_eq
    have solid : Stops isBlank (e.last ++ rest) := e.second.blankless_head rest
    obtain ⟨b, blanks, split⟩ := exists_cons_of_ne_nil e.between.nonempty
    have behind : (e.chars ++ rest).drop 3 = e.between.chars ++ (e.last ++ rest) := by
      rw [EndMark.chars, append_assoc, append_assoc]
      exact drop_left' length
    have front : (e.chars ++ rest).take 3 = e.word := by
      rw [EndMark.chars, append_assoc]
      exact take_left' length
    have gap : dropBlanks (e.between.chars ++ (e.last ++ rest)) = e.last ++ rest :=
      dropBlanks_gap e.between.toGap solid
    have head : (e.between.chars ++ (e.last ++ rest)).head?.any isBlank = true := by
      simp [split, e.between.blank b]
    rw [opensEnd, behind, gap, front, take_left' length', head]
    simp [e.isEnd, e.isRecord]

theorem opensEnd_of_wordless {c : Char} (rest : List Char) (wordless : isWord c = false) :
    opensEnd (c :: rest) = false := by
  rw [Bool.eq_false_iff]
  intro opens
  obtain ⟨e, rest', same⟩ := opensEnd_iff.mp opens
  have letters : e.word ≠ [] := e.first.nonempty
  have head := congrArg head? same
  rw [EndMark.chars, append_assoc, head?_append_of_ne_nil _ letters, head?_cons] at head
  exact e.first.not_mem wordless (mem_of_head? head.symm)

theorem opensEnd_stopsAt : StopsAt (fun _ => opensEnd) ';' := by
  refine ⟨fun _ rest => opensEnd_of_wordless rest (by decide), fun _ x rest _ => ?_⟩
  rw [Bool.eq_iff_iff, opensEnd_iff, opensEnd_iff]
  constructor
  · rintro ⟨e, tail, same⟩
    rcases append_eq_append_iff.mp same with ⟨cs, longer, behind⟩ | ⟨cs, shorter, -⟩
    · cases cs with
      | nil => exact ⟨e, [], by rw [longer, append_nil, append_nil]⟩
      | cons c cs =>
        obtain rfl := (cons.inj behind).1
        exact absurd (by simp [longer]) e.free
    · exact ⟨e, cs, shorter⟩
  · rintro ⟨e, tail, rfl⟩
    exact ⟨e, tail ++ ';' :: rest, by rw [append_assoc]⟩

namespace RecordLayout

/-- What is taken as the content of the record: the text behind the word `record` up to the first place where
the letters of `end` and `record` stand. -/
def content (r : RecordLayout) (back : List Char) : List Char :=
  cutBefore (fun _ => opensEnd) false (r.body ++ (r.closing ++ ';' :: back))

def ending (r : RecordLayout) : EndMark where
  word := "end".toList
  isEnd := by decide
  between := r.afterEnd
  last := "record".toList
  isRecord := by decide

/-- No field has the letters of `end` and `record` in it. -/
def Whole (r : RecordLayout) : Prop :=
  ∀ f ∈ r.fields, occurs (fun _ => opensEnd) false f.declaration = false

instance (r : RecordLayout) : Decidable r.Whole :=
  inferInstanceAs (Decidable (∀ f ∈ r.fields, _))

theorem opensEnd_solid (inside : Bool) (c : Char) (rest : List Char) (blank : isBlank c = true) :
    (fun (_ : Bool) => opensEnd) inside (c :: rest) = false :=
  opensEnd_of_wordless rest (isWord_of_isBlank blank)

theorem content_eq (r : RecordLayout) (back : List Char) :
    r.content back = r.afterRecord.chars ++
      cutBefore (fun _ => opensEnd) false (r.fields.flatMap RecordField.text ++ (r.closing ++ ';' :: back)) := by
  rw [content, body, append_assoc, cutBefore_gap opensEnd_solid]

theorem opens_closing (r : RecordLayout) (rest : List Char) : opensEnd (r.closing ++ rest) = true :=
  opensEnd_iff.mpr ⟨r.ending, rest, rfl⟩

theorem content_of_whole {r : RecordLayout} (whole : r.Whole) (back : List Char) : r.content back = r.body := by
  rw [content_eq, cutBefore_fields opensEnd_stopsAt opensEnd_solid whole,
    cutBefore_eq_nil (p := fun _ => opensEnd) (r.opens_closing _), append_nil, body]

theorem count_content {r : RecordLayout} (broken : ¬r.Whole) (back : List Char) :
    (r.content back).count ';' < r.fields.length := by
  have found : ∃ f ∈ r.fields, occurs (fun _ => opensEnd) false f.declaration = true := by
    simpa [Whole] using broken
  have blank : r.afterRecord.chars.count ';' = 0 := count_eq_zero_of_not_mem (r.afterRecord.not_mem (by decide))
  have fewer := count_cutBefore_fields opensEnd_stopsAt opensEnd_solid found (r.closing ++ ';' :: back)
  rw [content_eq, count_append, blank]
  omega

theorem count_fields (fields : List RecordField) :
    (fields.flatMap RecordField.text).count ';' = fields.length := by
  induction fields with
  | nil => rfl
  | cons f fields ih =>
    have none : f.declaration.count ';' = 0 := count_eq_zero_of_not_mem f.not_mem_declaration
    have blank : f.after.chars.count ';' = 0 := count_eq_zero_of_not_mem (f.after.not_mem (by decide))
    rw [flatMap_cons, count_append, ih, RecordField.text, count_append, count_cons_self, none,
      blank, length_cons]
    omega

theorem content_split (r : RecordLayout) (back : List Char) :
    ∃ (e : EndMark) (rest : List Char),
      r.body ++ (r.closing ++ ';' :: back) = r.content back ++ (e.chars ++ rest) := by
  have split : r.content back ++ (r.body ++ (r.closing ++ ';' :: back)).drop (r.content back).length =
      r.body ++ (r.closing ++ ';' :: back) := cutBefore_append_drop _ _ _
  have shorter : (r.content back).length < (r.body ++ (r.closing ++ ';' :: back)).length := by
    have cut := length_cutBefore_fields_lt opensEnd_stopsAt opensEnd_solid r.fields (r.opens_closing (';' :: back))
      (cons_ne_nil _ _)
    rw [content_eq, body, append_assoc]
    simp only [length_append] at cut ⊢
    omega
  obtain ⟨e, rest, behind⟩ := opensEnd_iff.mp (cutBefore_found shorter)
  exact ⟨e, rest, by rw [← behind]; exact split.symm⟩

end RecordLayout

end VhdlWorkbench.Design

import VhdlWorkbench.Design.Instance
import VhdlWorkbench.Proofs.ArchitectureLayout
import VhdlWorkbench.Proofs.TextCuts

/-!
Architectures up to their end: the first end mark behind the header, whose letters may also end a longer word.
-/

namespace VhdlWorkbench.Design

open Pattern Pattern.Node Declaration List String Option Text

/-- The letters of a word stand at the beginning of a text, and a word begins or ends behind them. -/
def wordAhead (word : String) (cs : List Char) : Bool :=
  decide (Reads word (cs.take word.length)) &&
    ((cs.take word.length).getLast?.any isWord != (cs.drop word.length).head?.any isWord)

/-- An end mark of the architecture of this name stands at the beginning of a text. -/
def endsArchitecture (name : List Char) (cs : List Char) : Bool :=
  let behind := dropBlanks (cs.drop 3)
  decide (Reads "end" (cs.take 3)) &&
    (behind.head? == some ';' ||
      ((cs.drop 3).head?.any isBlank &&
        (wordAhead "architecture" behind || wordAhead (ofList name) behind)))

/-- What stands behind the word `end` of an architecture. -/
inductive EndTail where
  | semicolon (gap : Gap)
  | kind (space : Space) (keyword : Keyword "architecture")
  | name (space : Space)

/-- The end of an architecture. -/
structure ArchitectureEnd where
  keyword : Keyword "end"
  tail : EndTail

namespace ArchitectureEnd

def text (e : ArchitectureEnd) (name : Identifier) : List Char :=
  e.keyword.chars ++
    match e.tail with
    | .semicolon gap => gap.chars ++ [';']
    | .kind space keyword => space.chars ++ keyword.chars
    | .name space => space.chars ++ name.chars

end ArchitectureEnd

section Reference

variable {text : Array Char} {o : Options} {cs rest : List Char} {pos : Nat}

theorem standsAt_self (here : textFrom text pos = cs ++ rest) : standsAt text o cs pos = true := by
  induction cs generalizing pos with
  | nil => rfl
  | cons c cs ih =>
    have first : text[pos]? = some c := by rw [head?_of_textFrom here]; rfl
    rw [standsAt, first]
    simp [ih (textFrom_cons here)]

theorem reads_of_standsAt [Folds o]
    (stands : standsAt text o cs pos = true) :
    ∃ w, Reads (ofList cs) w ∧ textFrom text pos = w ++ textFrom text (pos + w.length) := by
  have pairs : wordStandsAt text o cs pos = true := by
    induction cs generalizing pos with
    | nil => rfl
    | cons c cs ih =>
      rw [standsAt] at stands
      rw [wordStandsAt]
      split at stands
      · simp at stands
      · next d there =>
        simp only [Single.accepts, Bool.and_eq_true, Folds.fold, ↓reduceIte, beq_iff_eq] at stands ⊢
        exact ⟨by simp [charAccepts, sameLetter, Folds.fold, stands.1], ih stands.2⟩
  obtain ⟨w, tail, here, pairs⟩ := (wordStandsAt_iff cs pos).mp pairs
  simp only [charAccepts_fold] at pairs
  refine ⟨w, ?_, by rw [textFrom_append here, here]⟩
  rwa [Reads, toList_ofList]

end Reference

section Marks

variable {text : Array Char} {t t' r : Thread} {name : Identifier} {cs rest : List Char} {pos : Nat}

theorem wordAhead_of_edge {o : Options} [Full o] {word : String} {w : List Char}
    (reads : Reads word w) (nonempty : w ≠ []) (here : textFrom text pos = w ++ rest)
    (edged : Anchor.holds text o .wordEdge (pos + w.length) = true) : wordAhead word (w ++ rest) = true := by
  have length : w.length = word.length := reads.length_eq
  have last := getLast?_eq_some_getLast nonempty
  obtain ⟨positive, before⟩ := getElem?_last_of_textFrom here last
  have after := head?_of_textFrom (textFrom_append here)
  have sides : isWord (w.getLast nonempty) ≠ rest.head?.any isWord := by
    simp only [Anchor.holds, positive, ↓reduceIte, before, after, map_some, getD_some,
      Category.accepts, Full.full] at edged
    cases rest <;> simpa [Category.accepts, Full.full] using edged
  rw [wordAhead, ← length, take_left, drop_left, last]
  simpa [reads] using sides

/-- The pattern of an end mark; the name of the architecture is the first group. -/
def closeNode : Node :=
  lit "end" ++ oneOf [gap1 ++ lit "architecture" ++ edge, gap1 ++ .ref 1 ++ edge, gap ++ lit ";"]

/-- What stands in a text where an end mark was passed. -/
structure EndText (name : Identifier) (text : Array Char) (pos pos' : Nat) : Prop where
  ends : endsArchitecture name.chars (textFrom text pos) = true
  passed : ∃ tail, textFrom text pos = tail ++ textFrom text pos' ∧ pos' = pos + tail.length ∧ ':' ∉ tail ∧
    ∃ c, tail.head? = some c ∧ isWord c = true

theorem endText_of_parts {w x : List Char} {g : Gap} {pos' : Nat} (reads : Reads "end" w)
    (here : textFrom text pos = w ++ (g.chars ++ (x ++ textFrom text pos')))
    (stop : pos' = pos + w.length + g.chars.length + x.length)
    (solid : Stops isBlank (x ++ textFrom text pos')) (colonless : ':' ∉ x)
    (mark : (x ++ textFrom text pos').head? = some ';' ∨
      g.chars ≠ [] ∧ (wordAhead "architecture" (x ++ textFrom text pos') = true ∨
        wordAhead (ofList name.chars) (x ++ textFrom text pos') = true)) : EndText name text pos pos' := by
  let word := reads.identifier (by decide) (by decide)
  have length : w.length = 3 := reads.length_eq
  have blank (some : g.chars ≠ []) : (g.chars ++ (x ++ textFrom text pos')).head?.any isBlank = true := by
    obtain ⟨c, blanks, letters⟩ := exists_cons_of_ne_nil some
    simp [letters, g.blank c]
  constructor
  · rw [here]
    simp only [endsArchitecture, ← length, take_left, drop_left, dropBlanks_gap g solid, Bool.and_eq_true,
      decide_eq_true_eq, Bool.or_eq_true, beq_iff_eq]
    refine ⟨reads, mark.imp id ?_⟩
    rintro ⟨some, behind⟩
    exact ⟨blank some, behind⟩
  · refine ⟨w ++ (g.chars ++ x), by simp [here], by simp only [List.length_append]; omega, ?_, ?_⟩
    · simp only [mem_append, not_or]
      exact ⟨word.not_mem (by decide), g.not_mem (by decide), colonless⟩
    · obtain ⟨c, cs, letters⟩ := exists_cons_of_ne_nil word.nonempty
      exact ⟨c, by simp [show w = c :: cs from letters], word.wordy c (by simp [letters])⟩

theorem endText_of_reaches {start stop : Nat} (span : t.spans[1]? = some (some (start, stop)))
    (named : segment text start stop = name.chars) (length : stop = start + name.chars.length)
    (reached : Reaches text closeNode blockOptions t t') : EndText name text t.pos t'.pos := by
  obtain ⟨_, word, tail⟩ := reached
  obtain ⟨w, reads, here, rfl⟩ := reaches_word word
  rcases tail with ⟨_, ⟨_, blanks, kind⟩, edged, rfl⟩ | ⟨_, ⟨_, blanks, own⟩, edged, rfl⟩ | ⟨_, blanks, mark⟩
  · obtain ⟨g, atGap, enough, rfl⟩ := reaches_gap blanks
    obtain ⟨x, reads', atKind, rfl⟩ := reaches_word kind
    let kind := reads'.identifier (by decide) (by decide)
    have ahead := wordAhead_of_edge reads' kind.nonempty atKind edged
    exact endText_of_parts reads (by rw [here, atGap, atKind]) rfl (kind.blankless_head _)
      (kind.not_mem (by decide)) (Or.inr ⟨length_pos_iff.mp enough, Or.inl ahead⟩)
  · obtain ⟨g, atGap, enough, rfl⟩ := reaches_gap blanks
    obtain ⟨start', stop', span', stands, rfl⟩ := own
    obtain ⟨rfl, rfl⟩ := Prod.mk.inj (some.inj (some.inj (span.symm.trans span')))
    rw [named] at stands
    obtain ⟨x, reads', atName⟩ := reads_of_standsAt stands
    have width : stop - start = x.length := by
      have same := reads'.length_eq
      rw [length_ofList] at same
      omega
    obtain ⟨nonempty, unended⟩ := Identifier.unended_of_reads reads'
    have solid : Stops isBlank (x ++ textFrom text (t.pos + w.length + g.chars.length + x.length)) := by
      intro c head
      rw [head?_append_of_ne_nil _ nonempty] at head
      exact isBlank_of_unended (unended c (mem_of_head? head))
    rw [width] at edged ⊢
    have ahead := wordAhead_of_edge reads' nonempty atName edged
    exact endText_of_parts reads (by rw [here, atGap]; exact congrArg (fun tail => w ++ (g.chars ++ tail)) atName) rfl solid
      (fun colon => absurd (unended ':' colon) (by decide)) (Or.inr ⟨length_pos_iff.mp enough, Or.inr ahead⟩)
  · obtain ⟨g, atGap, -, rfl⟩ := reaches_gap blanks
    obtain ⟨atMark, rfl⟩ := reaches_mark (c := ';') (by rfl) (by decide) mark
    exact endText_of_parts (x := [';']) reads (by rw [here, atGap, atMark]; rfl) rfl (by rintro c ⟨⟩; decide) (by decide)
      (Or.inl rfl)

variable {k : Continuation}

theorem exists_exec_alt {a b : Node} {o : Options}
    (found : (∃ r, exec text a o t k = some r) ∨ ∃ r, exec text b o t k = some r) :
    ∃ r, exec text (.alt a b) o t k = some r := by
  rw [exec_alt]
  rcases found with ⟨r, success⟩ | ⟨r, success⟩
  · exact ⟨r, by rw [success, some_or]⟩
  · rw [success]
    cases exec text a o t k with
    | none => exact ⟨r, rfl⟩
    | some first => exact ⟨first, rfl⟩

theorem exists_exec_end (e : ArchitectureEnd) (here : textFrom text t.pos = e.text name ++ rest)
    (stops : Stops isWord rest) {start : Nat}
    (span : t.spans[1]? = some (some (start, start + name.chars.length)))
    (named : segment text start (start + name.chars.length) = name.chars) :
    ∃ r, exec text closeNode blockOptions t some = some r := by
  rw [ArchitectureEnd.text, List.append_assoc] at here
  have behind := textFrom_append here
  suffices tail : ∃ r, exec text
      (.alt (gap1 ++ lit "architecture" ++ edge) (.alt (gap1 ++ .ref 1 ++ edge) (gap ++ lit ";"))) blockOptions
      ⟨t.pos + e.keyword.chars.length, t.spans⟩ some = some r by
    obtain ⟨r, success⟩ := tail
    exact ⟨r, exec_keyword e.keyword (by decide) here success⟩
  cases form : e.tail with
  | semicolon g =>
    simp only [form, List.append_assoc, List.singleton_append] at behind
    refine exists_exec_alt (Or.inr (exists_exec_alt (Or.inr
      ⟨⟨t.pos + e.keyword.chars.length + g.chars.length + 1, t.spans⟩, ?_⟩)))
    rw [exec_seq]
    refine exec_gap g behind (by rintro c ⟨⟩; decide) (Nat.zero_le _) ?_
    exact exec_mark (by rfl) (textFrom_append behind) rfl
  | kind space keyword =>
    simp only [form, List.append_assoc] at behind
    let word := keyword.identifier (by decide) (by decide)
    have atWord := textFrom_append behind
    refine exists_exec_alt (Or.inl
      ⟨⟨t.pos + e.keyword.chars.length + space.chars.length + keyword.chars.length, t.spans⟩, ?_⟩)
    simp only [exec_seq]
    refine exec_gap space.toGap behind (word.blankless_head _) (List.length_pos_iff.mpr space.nonempty) ?_
    refine exec_keyword keyword (by decide) atWord ?_
    rw [exec_edge word atWord stops rfl]
  | name space =>
    simp only [form, List.append_assoc] at behind
    have atName := textFrom_append behind
    refine exists_exec_alt (Or.inr (exists_exec_alt (Or.inl
      ⟨⟨t.pos + e.keyword.chars.length + space.chars.length + name.chars.length, t.spans⟩, ?_⟩)))
    simp only [exec_seq]
    refine exec_gap space.toGap behind (name.blankless_head _) (List.length_pos_iff.mpr space.nonempty) ?_
    have stands := standsAt_self (o := blockOptions) atName
    simp only [exec, span, named, stands, ↓reduceIte, Nat.add_sub_cancel_left]
    exact exec_edge name atName stops rfl

end Marks

section Search

variable {text : Array Char} {t : Thread} {content rest : List Char} {unit : String}

def bodyNode (unit : Node) : Node :=
  headNode (.capture 1 none identifier) unit ++ few .any ++ lit "end" ++
    oneOf [gap1 ++ lit "architecture" ++ edge, gap1 ++ .ref 1 ++ edge, gap ++ lit ";"]

def bodyRegex (unit : Node) : Regex where
  node := bodyNode unit
  options := blockOptions
  slots := 2
  names := []

theorem build_architectureBody {h : ArchitectureHead} (named : h.Named unit) :
    Regex.build blockOptions (architectureBody unit) = .ok (bodyRegex (nameOrAny unit)) := by
  rcases named with rfl | rfl
  · rfl
  · have form := nameOrAny_identifier h.unit
    have pasted : (architectureBody (ofList h.unit.chars)).pastedTexts = [ofList h.unit.chars] := by
      rw [architectureBody, form]
      rfl
    rw [build_of_wordy pasted (by simpa using h.unit.wordy), architectureBody, form]
    rfl

/-- The end of the architecture is the first end mark behind its header. -/
def EndsFirst (h : ArchitectureHead) (content tail : List Char) : Prop :=
  cutBefore (fun _ => endsArchitecture h.name.chars) false (content ++ tail) = content

instance (h : ArchitectureHead) (content tail : List Char) : Decidable (EndsFirst h content tail) :=
  inferInstanceAs (Decidable (_ = _))

/-- The text of an architecture with a piece of its end mark. -/
def ArchitectureText (h : ArchitectureHead) (content : List Char) (s : String) : Prop :=
  ∃ (g : Gap) (tail : List Char), s = ofList (g.chars ++ (h.text ++ (content ++ tail))) ∧ ':' ∉ tail ∧
    ∃ c, tail.head? = some c ∧ isWord c = true

theorem exec_architecture (h : ArchitectureHead) (g : Gap) (e : ArchitectureEnd) (named : h.Named unit)
    (stops : Stops isWord rest)
    (first : EndsFirst h content (e.text h.name ++ rest))
    (here : textFrom text t.pos = g.chars ++ (h.text ++ (content ++ (e.text h.name ++ rest))))
    (line : LineStart text t.pos) (room : 1 < t.spans.size) :
    ∃ r, exec text (bodyNode (nameOrAny unit)) blockOptions t some = some r ∧
      ArchitectureText h content (ofList (segment text t.pos r.pos)) := by
  let start := h.nameAt (t.pos + g.chars.length)
  let behind : Thread := ⟨t.pos + g.chars.length + h.text.length,
    t.spans.setIfInBounds 1 (some (start, start + h.name.chars.length))⟩
  have atHead := textFrom_append here
  have atContent : textFrom text behind.pos = content ++ (e.text h.name ++ rest) := textFrom_append atHead
  have atEnd := textFrom_append atContent
  have span : behind.spans[1]? = some (some (start, start + h.name.chars.length)) :=
    Array.getElem?_setIfInBounds_self_of_lt room
  have own : segment text start (start + h.name.chars.length) = h.name.chars := by
    simp only [ArchitectureHead.text, List.append_assoc] at atHead
    exact segment_of_textFrom (textFrom_append (textFrom_append atHead))
  obtain ⟨r, closed⟩ := exists_exec_end (t := ⟨behind.pos + content.length, behind.spans⟩) e atEnd stops span own
  refine ⟨r, ?_, ?_⟩
  · simp only [bodyNode, exec_seq]
    refine exec_head h g (f := fun t' => ⟨t'.pos + h.unit.chars.length, t'.spans⟩) (fun _ => rfl)
      (fun _ _ _ there apart next => exec_nameOrAny h.unit named there apart next) here line ?_
    refine exec_few_of_segment atContent (fun _ _ => rfl) ?_ closed
    -- an end mark inside the content would end the architecture there
    intro i early
    rw [eq_none_iff_forall_not_mem]
    intro r' success
    obtain ⟨_, reached, -⟩ := exec_reaches closeNode _ _ _ _ success
    have ends := (endText_of_reaches (t := ⟨behind.pos + i, behind.spans⟩) span own rfl reached).ends
    have none : endsArchitecture h.name.chars ((content ++ (e.text h.name ++ rest)).drop i) = false :=
      cutBefore_early (p := fun _ => endsArchitecture h.name.chars) (by rwa [first])
    rw [textFrom_add, atContent, none] at ends
    exact Bool.noConfusion ends
  · obtain ⟨t', reached, last⟩ := exec_reaches _ _ _ _ _ closed
    obtain rfl := some.inj last
    obtain ⟨tail, there, stop, colonless, wordy⟩ :=
      (endText_of_reaches (t := ⟨behind.pos + content.length, behind.spans⟩) span own rfl reached).passed
    refine ⟨g, tail, ?_, colonless, wordy⟩
    rw [atEnd] at there
    have whole : textFrom text t.pos = (g.chars ++ (h.text ++ (content ++ tail))) ++ textFrom text t'.pos := by
      rw [here, there]
      simp only [List.append_assoc]
    have width : t'.pos = t.pos + (g.chars ++ (h.text ++ (content ++ tail))).length := by
      rw [stop]
      simp only [behind, List.length_append]
      omega
    rw [width, segment_of_textFrom whole]

/-- An architecture that opens a line is found up to its end. -/
theorem search_architecture (h : ArchitectureHead) (e : ArchitectureEnd) (named : h.Named unit) {before : List Char}
    (preface : Preface ["architecture"] before) (stops : Stops isWord rest)
    (first : EndsFirst h content (e.text h.name ++ rest)) :
    ∃ m, (bodyRegex (nameOrAny unit)).search?
        (ofList (before ++ (h.text ++ (content ++ (e.text h.name ++ rest))))) = some m ∧
      ArchitectureText h content m.text := by
  rw [Regex.search?, toList_ofList]
  refine search_opening rfl ?_ (textFrom_zero _) ?_ preface.quiet preface.closes preface.opens ?_
  · intro p m found
    obtain ⟨_, head⟩ := Regex.matchAt_front 3 found
    exact opening_of_head head
  · exact ⟨fun _ => rfl, fun _ => Or.inl rfl⟩
  · intro g p line there
    have inside := lt_size_of_textFrom there (by
      obtain ⟨c, last, -⟩ := h.text_last
      simp [ne_nil_of_mem (mem_of_getLast? last)])
    obtain ⟨r, run, taken⟩ := exec_architecture (t := ⟨p, Array.replicate 2 none⟩) h g e named stops first there line
      (by simp)
    exact ⟨_, Regex.matchAt_of_exec rfl (Nat.le_of_lt inside) run, taken⟩

end Search

end VhdlWorkbench.Design

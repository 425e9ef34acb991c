import VhdlWorkbench.Layout.Binding
import VhdlWorkbench.Proofs.Words

/-!
The bindings of a map as they are written: the groups of their pattern are their parts.
-/

namespace VhdlWorkbench.Layout

open Pattern Pattern.Node Design List String Text Regex Bool
open Nat (zero_le add_assoc)

def isSpace (c : Char) : Bool :=
  c == ' ' || c == '\t'

theorem isBlank_of_isSpace {c : Char} (space : isSpace c = true) : isBlank c = true := by
  rcases (by simpa [isSpace] using space : c = ' ' ∨ c = '\t') with rfl | rfl <;> decide

/-- One character with an optional slash in parentheses, behind a formal name. -/
structure FormalIndex where
  gap : Gap
  inner : Char
  slash : Bool
  visible : inner ≠ '\n'

def FormalIndex.mark (i : FormalIndex) : List Char :=
  '(' :: i.inner :: ((if i.slash then ['/'] else []) ++ [')'])

/-- A formal name as it is written. -/
structure Formal where
  name : Identifier
  index : Option FormalIndex

def Formal.chars (f : Formal) : List Char :=
  match f.index with
  | none => f.name.chars
  | some i => f.name.chars ++ (i.gap.chars ++ i.mark)

/-- A binding as it is written, up to the end of its line. -/
structure BindingText where
  lead : Gap
  formal : Formal
  gap : Gap
  body : List Char
  single : '\n' ∉ body

def BindingText.text (b : BindingText) : List Char :=
  b.lead.chars ++ (b.formal.chars ++ (b.gap.chars ++ ("=>".toList ++ b.body)))

/-- Nothing but a comment follows. -/
def closesRow (cs : List Char) : Bool :=
  cs.isEmpty || "--".toList.isPrefixOf (cs.dropWhile isSpace)

/-- The actual value is over: a comma may follow, and then nothing but a comment. -/
def endsValue (cs : List Char) : Bool :=
  closesRow cs || (cs.head? == some ',' && closesRow cs.tail)

/-- The actual value at the beginning of the rest of a line, with the blanks around it. -/
def valuePart : List Char → List Char
  | [] => []
  | c :: cs => if endsValue (c :: cs) then [] else c :: valuePart cs

def valueRest (body : List Char) : List Char :=
  body.drop (valuePart body).length

def hasComma (body : List Char) : Bool :=
  (valueRest body).head? == some ','

def commentPart (body : List Char) : List Char :=
  if hasComma body then (valueRest body).tail else valueRest body

theorem valuePart_append_rest (body : List Char) : valuePart body ++ valueRest body = body := by
  unfold valueRest
  induction body with
  | nil => rfl
  | cons c cs ih =>
    rw [valuePart]
    split
    · rfl
    · simp [ih]

theorem endsValue_rest (body : List Char) : endsValue (valueRest body) = true := by
  unfold valueRest
  induction body with
  | nil => rfl
  | cons c cs ih =>
    rw [valuePart]
    split
    · next ends => exact ends
    · exact ih

theorem endsValue_early {body : List Char} {n : Nat} (early : n < (valuePart body).length) :
    endsValue (body.drop n) = false := by
  induction body generalizing n with
  | nil => simp [valuePart] at early
  | cons c cs ih =>
    rw [valuePart] at early
    split at early
    · simp at early
    · next other =>
      cases n with
      | zero => simpa using other
      | succ n => exact ih (by simpa using early)

theorem body_parts (body : List Char) :
    body = valuePart body ++ ((if hasComma body then [','] else []) ++ commentPart body) := by
  have whole := valuePart_append_rest body
  unfold commentPart
  split
  · next comma =>
    obtain ⟨tail, rest⟩ : ∃ tail, valueRest body = ',' :: tail := by
      simpa [hasComma, head?_eq_some_iff] using comma
    rw [rest] at whole ⊢
    exact whole.symm
  · exact whole.symm

theorem closesRow_comment (body : List Char) : closesRow (commentPart body) = true := by
  have ends := endsValue_rest body
  rw [endsValue, or_eq_true] at ends
  unfold commentPart
  split
  · next comma =>
    obtain ⟨tail, rest⟩ : ∃ tail, valueRest body = ',' :: tail := by
      simpa [hasComma, head?_eq_some_iff] using comma
    rw [rest] at ends ⊢
    simpa [closesRow, isSpace] using ends
  · next other => simpa [show ((valueRest body).head? == some ',') = false by simpa [hasComma] using other] using ends

theorem closesRow_iff {cs : List Char} : closesRow cs = true ↔
    cs = [] ∨ ∃ spaces more, cs = spaces ++ ("--".toList ++ more) ∧ ∀ c ∈ spaces, isSpace c = true := by
  rw [closesRow, or_eq_true, List.isEmpty_iff, List.isPrefixOf_iff_prefix]
  refine or_congr_right ⟨?_, ?_⟩
  · rintro ⟨more, there⟩
    refine ⟨cs.takeWhile isSpace, more, ?_, fun c => mem_takeWhile_imp⟩
    rw [there, List.takeWhile_append_dropWhile]
  · rintro ⟨spaces, more, rfl, blank⟩
    rw [dropWhile_append_of_pos blank]
    exact ⟨more, rfl⟩

/-- What follows begins with a line feed, or nothing follows. -/
def EndsLine (rest : List Char) : Prop :=
  ∀ c, rest.head? = some c → c = '\n'

theorem line_unique {l l' rest rest' : List Char} (same : l ++ rest = l' ++ rest') (visible : '\n' ∉ l)
    (ends : EndsLine rest) (visible' : '\n' ∉ l') (ends' : EndsLine rest') : l = l' ∧ rest = rest' := by
  have taken {l : List Char} (visible : '\n' ∉ l) : ∀ c ∈ l, (c != '\n') = true := by
    intro c member
    rw [bne_iff_ne]
    rintro rfl
    exact visible member
  have stops {rest : List Char} (ends : EndsLine rest) : ∀ c, rest.head? = some c → (c != '\n') = false := by
    intro c head
    rw [ends c head]
    rfl
  exact cut_unique same (taken visible) (stops ends) (taken visible') (stops ends')

section Matching

variable {text : Array Char} {lines : Bool} {t t' r : Thread} {k : Continuation} {rest : List Char} {pos : Nat}

theorem accepts_spaces (c : Char) : space.accepts { multiline := lines } c = isSpace c := by
  simp [space, Single.accepts, SetItem.accepts, isSpace, BEq.comm]

theorem accepts_any (c : Char) : Single.any.accepts { multiline := lines } c = (c != '\n') := by
  simp [Single.accepts]

theorem accepts_char (d c : Char) : (Single.char d).accepts { multiline := lines } c = (c == d) := by
  simp [Single.accepts, charAccepts, BEq.comm]

theorem feed_of_lineEnd {o : Options} (holds : Anchor.holds text o .lineEnd pos = true) :
    EndsLine (textFrom text pos) := by
  intro c head
  rw [← head?_of_textFrom rfl] at head
  obtain ⟨before, -⟩ := Array.getElem?_eq_some_iff.mp head
  simp only [Anchor.holds, or_eq_true, beq_iff_eq, and_eq_true, head, Option.some.injEq] at holds
  rcases holds with last | ⟨feed, -⟩
  · omega
  · exact feed

theorem lineEnd_of_feed (single : lines = true ∨ '\n' ∉ text.toList) (inside : pos ≤ text.size)
    (feed : EndsLine (textFrom text pos)) : Anchor.holds text { multiline := lines } .lineEnd pos = true := by
  rw [EndsLine, ← head?_of_textFrom rfl] at feed
  simp only [Anchor.holds, or_eq_true, beq_iff_eq, and_eq_true]
  rcases Nat.lt_or_eq_of_le inside with before | last
  · have there : text[pos]? = some text[pos] := Array.getElem?_eq_getElem before
    have here := feed _ there
    rcases single with rfl | absent
    · exact Or.inr ⟨there.trans (congrArg some here), Or.inl rfl⟩
    · exact absurd (here ▸ Array.getElem_mem_toList before) absent
  · exact Or.inl last

def afterValue (text : Array Char) (lines : Bool) (t : Thread) : Option Thread :=
  exec text (.capture 3 (some "sep") (maybe (.char ','))) { multiline := lines } t fun t =>
    exec text (optional (.capture 4 (some "comment") (spacing ++ lit "--" ++ many .any)))
      { multiline := lines } t fun t => exec text stop { multiline := lines } t some

theorem reaches_spaces (reached : Reaches text spacing { multiline := lines } t t') :
    ∃ spaces, textFrom text t.pos = spaces ++ textFrom text t'.pos ∧ (∀ c ∈ spaces, isSpace c = true) ∧
      t'.spans = t.spans := by
  obtain ⟨spaces, here, taken, -, -, rfl⟩ := reaches_run reached
  simp only [accepts_spaces] at taken
  exact ⟨spaces, here, taken, rfl⟩

theorem reaches_visible {lo : Nat} {hi : Option Nat} {greed : Greed}
    (reached : Reaches text (.run .any lo hi greed) { multiline := lines } t t') :
    ∃ seg, textFrom text t.pos = seg ++ textFrom text t'.pos ∧ '\n' ∉ seg ∧
      t' = { t with pos := t.pos + seg.length } := by
  obtain ⟨seg, here, taken, -, -, moved⟩ := reaches_run reached
  simp only [accepts_any, bne_iff_ne] at taken
  exact ⟨seg, here, fun member => taken _ member rfl, moved⟩

theorem reaches_bindingComment
    (reached : Reaches text (.capture 4 (some "comment") (spacing ++ lit "--" ++ many .any))
      { multiline := lines } t t')
    (start : t.pos = pos) : ∃ u, textFrom text pos = u ++ textFrom text t'.pos ∧ u ≠ [] ∧ '\n' ∉ u ∧
      closesRow u = true := by
  obtain ⟨m, ⟨t₂, ⟨t₁, blanks, dashes⟩, more⟩, rfl⟩ := reached
  obtain ⟨spaces, first, blank, -⟩ := reaches_spaces blanks
  obtain ⟨second, -⟩ := reaches_cased rfl dashes
  obtain ⟨seg, third, visible, -⟩ := reaches_visible more
  have feedless : '\n' ∉ spaces := fun member => absurd (blank _ member) (by decide)
  subst start
  refine ⟨spaces ++ ("--".toList ++ seg), ?_, by simp, ?_, closesRow_iff.mpr (Or.inr ⟨spaces, seg, rfl, blank⟩)⟩
  · rw [first, second, third]
    simp
  · simp [feedless, visible]

/-- Where a row ends, the value before it is over, and the line ends behind what is taken. -/
theorem reaches_rowEnd {t₁ t₂ t₃ : Thread}
    (comma : Reaches text (.capture 3 (some "sep") (maybe (.char ','))) { multiline := lines } t t₁)
    (option : Reaches text (optional (.capture 4 (some "comment") (spacing ++ lit "--" ++ many .any)))
      { multiline := lines } t₁ t₂)
    (ends : Reaches text stop { multiline := lines } t₂ t₃) :
    ∃ u, textFrom text t.pos = u ++ textFrom text t₃.pos ∧ '\n' ∉ u ∧ endsValue u = true ∧
      EndsLine (textFrom text t₃.pos) := by
  obtain ⟨m, mark, rfl⟩ := comma
  obtain ⟨holds, rfl⟩ := ends
  have closed : ∃ u, textFrom text m.pos = u ++ textFrom text t₃.pos ∧ '\n' ∉ u ∧ closesRow u = true := by
    rcases reaches_optional option with rfl | comment
    · exact ⟨[], rfl, not_mem_nil, rfl⟩
    · obtain ⟨u, split, -, closed⟩ := reaches_bindingComment comment rfl
      exact ⟨u, split, closed⟩
  obtain ⟨u, second, visible, closes⟩ := closed
  obtain ⟨sep, first, taken, -, short, -⟩ := reaches_run mark
  simp only [accepts_char, beq_iff_eq] at taken
  have bound := short 1 rfl
  rw [second] at first
  match sep, taken, bound with
  | [], _, _ => exact ⟨u, first, visible, by simp [endsValue, closes], feed_of_lineEnd holds⟩
  | [c], taken, _ =>
    obtain rfl := taken c mem_cons_self
    exact ⟨',' :: u, first, by simp [visible], by simp [endsValue, closes], feed_of_lineEnd holds⟩
  | _ :: _ :: _, _, bound => simp at bound

theorem afterValue_eq_none {u : List Char} (here : textFrom text t.pos = u ++ rest) (visible : '\n' ∉ u)
    (feed : EndsLine rest) (open_ : endsValue u = false) :
    afterValue text lines t = none := by
  cases found : afterValue text lines t with
  | none => rfl
  | some r =>
    obtain ⟨t₁, comma, found₁⟩ := exec_reaches _ _ _ _ _ found
    obtain ⟨t₂, option, found₂⟩ := exec_reaches _ _ _ _ _ found₁
    obtain ⟨t₃, stops, -⟩ := exec_reaches _ _ _ _ _ found₂
    obtain ⟨u', here', visible', ends, feed'⟩ := reaches_rowEnd comma option stops
    obtain ⟨rfl, -⟩ := line_unique (here.symm.trans here') visible feed visible' feed'
    rw [ends] at open_
    exact Bool.noConfusion open_

def endSpans (t : Thread) (comma : Bool) (comment : List Char) : Array (Option (Nat × Nat)) :=
  let start := if comma then t.pos + 1 else t.pos
  let spans := t.spans.setIfInBounds 3 (some (t.pos, start))
  if comment.isEmpty then spans else spans.setIfInBounds 4 (some (start, start + comment.length))

theorem endSpans_keeps {slot : Nat} {comma : Bool} {comment : List Char} (first : slot ≠ 3)
    (second : slot ≠ 4) :
    (endSpans t comma comment)[slot]? = t.spans[slot]? := by
  simp only [endSpans]
  cases comment.isEmpty with
  | true => rw [if_pos rfl, Array.getElem?_setIfInBounds_ne (Ne.symm first)]
  | false =>
    rw [if_neg Bool.false_ne_true, Array.getElem?_setIfInBounds_ne (Ne.symm second),
      Array.getElem?_setIfInBounds_ne (Ne.symm first)]

theorem endSpans_comma {comma : Bool} {comment : List Char} (room : t.spans.size = 5) :
    (endSpans t comma comment)[3]? = some (some (t.pos, if comma then t.pos + 1 else t.pos)) := by
  have inside : 3 < t.spans.size := by omega
  simp only [endSpans]
  cases comment.isEmpty with
  | true => rw [if_pos rfl, Array.getElem?_setIfInBounds_self_of_lt inside]
  | false =>
    rw [if_neg Bool.false_ne_true, Array.getElem?_setIfInBounds_ne (show (4 : Nat) ≠ 3 by decide),
      Array.getElem?_setIfInBounds_self_of_lt inside]

theorem endSpans_comment {comma : Bool} {comment : List Char} (room : t.spans.size = 5)
    (unset : t.spans[4]? = some none) :
    (endSpans t comma comment)[4]? = some (if comment.isEmpty then none else
      some (if comma then t.pos + 1 else t.pos, (if comma then t.pos + 1 else t.pos) + comment.length)) := by
  have inside : 4 < (t.spans.setIfInBounds 3 (some (t.pos, if comma then t.pos + 1 else t.pos))).size := by
    rw [Array.size_setIfInBounds]
    omega
  simp only [endSpans]
  cases comment.isEmpty with
  | true => rw [if_pos rfl, Array.getElem?_setIfInBounds_ne (show (3 : Nat) ≠ 4 by decide), unset, if_pos rfl]
  | false => rw [if_neg Bool.false_ne_true, Array.getElem?_setIfInBounds_self_of_lt inside, if_neg Bool.false_ne_true]

theorem exec_comment {comment : List Char} {spans : Array (Option (Nat × Nat))}
    (single : lines = true ∨ '\n' ∉ text.toList)
    (inside : pos ≤ text.size) (here : textFrom text pos = comment ++ rest) (closes : closesRow comment = true)
    (visible : '\n' ∉ comment) (feed : EndsLine rest) :
    exec text (optional (.capture 4 (some "comment") (spacing ++ lit "--" ++ many .any)))
        { multiline := lines } ⟨pos, spans⟩ (fun t => exec text stop { multiline := lines } t some) =
      some { pos := pos + comment.length
             spans := if comment.isEmpty then spans else
               spans.setIfInBounds 4 (some (pos, pos + comment.length)) } := by
  have last (spans : Array (Option (Nat × Nat))) : exec text stop { multiline := lines }
      ⟨pos + comment.length, spans⟩ some = some ⟨pos + comment.length, spans⟩ := by
    refine exec_anchor_of_holds (lineEnd_of_feed single ?_ ?_)
    · have size := textFrom_length text pos
      rw [here, List.length_append] at size
      change pos + comment.length ≤ text.size
      omega
    · rwa [textFrom_append here]
  rcases closesRow_iff.mp closes with rfl | ⟨spaces, more, rfl, blank⟩
  · refine exec_optional_of_none ?_ (last spans)
    cases found : exec text (.capture 4 (some "comment") (spacing ++ lit "--" ++ many .any)) { multiline := lines }
        ⟨pos, spans⟩ (fun t => exec text stop { multiline := lines } t some) with
    | none => rfl
    | some r =>
      obtain ⟨t', reached, -⟩ := exec_reaches _ _ _ _ _ found
      obtain ⟨u, split, nonempty, visible', -⟩ := reaches_bindingComment reached rfl
      obtain ⟨c, u, rfl⟩ := exists_cons_of_ne_nil nonempty
      rw [here, nil_append] at split
      have := feed c (by rw [split]; rfl)
      simp [this] at visible'
  · refine exec_optional_of_some ?_
    rw [exec_capture, exec_seq, exec_seq]
    rw [List.append_assoc, List.append_assoc] at here
    refine exec_run_of_segment here (fun c member => by rw [accepts_spaces, blank c member]) ?_ (zero_le _) ?_
    · rintro c ⟨⟩
      rfl
    have dashes := textFrom_append here
    refine exec_lit_of_cased rfl dashes ?_
    refine exec_run_of_segment (textFrom_append dashes) ?_ ?_ (zero_le _) ?_
    · intro c member
      rw [accepts_any, bne_iff_ne]
      rintro rfl
      exact visible (by simp [member])
    · intro c head
      rw [feed c head]
      rfl
    · have place : pos + spaces.length + "--".length + more.length =
          pos + (spaces ++ ("--".toList ++ more)).length := by
        rw [← length_toList, List.length_append, List.length_append, add_assoc, add_assoc]
      dsimp only
      rw [place, if_neg (by simp)]
      exact last _

/-- Where the value is over, its comma and its comment are taken, and the line ends. -/
theorem afterValue_of_parts {comma : Bool} {comment : List Char}
    (single : lines = true ∨ '\n' ∉ text.toList) (inside : t.pos ≤ text.size)
    (here : textFrom text t.pos = (if comma then [','] else []) ++ (comment ++ rest))
    (closes : closesRow comment = true) (visible : '\n' ∉ comment) (feed : EndsLine rest) :
    afterValue text lines t = some { pos := t.pos + ((if comma then 1 else 0) + comment.length)
                                     spans := endSpans t comma comment } := by
  unfold afterValue
  rw [exec_capture]
  cases comma with
  | true =>
    rw [if_pos rfl, singleton_append] at here
    have room := lt_size_of_textFrom here (by simp)
    refine exec_maybe_of_taken here (by rw [accepts_char]; rfl) ?_
    dsimp only
    rw [exec_comment single room (textFrom_cons here) closes visible feed]
    simp [endSpans, add_assoc]
  | false =>
    rw [if_neg Bool.false_ne_true, nil_append] at here
    refine exec_maybe_of_stop ?_ ?_
    · intro c head
      rw [here] at head
      have other : c ≠ ',' := by
        rintro rfl
        rcases closesRow_iff.mp closes with rfl | ⟨_ | ⟨d, spaces⟩, more, rfl, blank⟩
        · exact absurd (feed _ head) (by decide)
        · simp at head
        · simp at head
          exact absurd (blank d mem_cons_self) (by rw [head]; decide)
      rw [accepts_char, beq_eq_false_iff_ne]
      exact other
    · rw [exec_comment single inside here closes visible feed]
      simp [endSpans]

def formalNode : Node :=
  identifier ++ Node.optional (.group (gap ++ lit "(" ++ .one .any ++ maybe (.char '/') ++ lit ")"))

theorem reaches_index
    (reached : Reaches text (.group (gap ++ lit "(" ++ .one .any ++ maybe (.char '/') ++ lit ")"))
      { multiline := lines } t t') :
    ∃ i : FormalIndex, textFrom text t.pos = i.gap.chars ++ i.mark ++ textFrom text t'.pos ∧
      t' = { t with pos := t.pos + (i.gap.chars ++ i.mark).length } := by
  obtain ⟨t₄, ⟨t₃, ⟨t₂, ⟨t₁, blanks, opens⟩, one⟩, slash⟩, closes⟩ := reached
  obtain ⟨g, first, -, rfl⟩ := reaches_gap blanks
  obtain ⟨second, rfl⟩ := reaches_cased rfl opens
  obtain ⟨c, there, accepted, rfl⟩ := one
  have third := textFrom_of_getElem? there
  obtain ⟨seg, fourth, taken, -, short, rfl⟩ := reaches_run slash
  obtain ⟨fifth, rfl⟩ := reaches_cased rfl closes
  simp only [accepts_char, beq_iff_eq] at taken
  rw [accepts_any, bne_iff_ne] at accepted
  have bound := short 1 rfl
  have one : "(".length = 1 ∧ ")".length = 1 := ⟨rfl, rfl⟩
  match seg, taken, bound with
  | [], _, _ =>
    refine ⟨⟨g, c, false, accepted⟩, ?_, ?_⟩
    · rw [first, second, third, fourth, fifth]
      simp [FormalIndex.mark]
    · simp [FormalIndex.mark, one, add_assoc]
  | [d], taken, _ =>
    obtain rfl := taken d mem_cons_self
    refine ⟨⟨g, c, true, accepted⟩, ?_, ?_⟩
    · rw [first, second, third, fourth, fifth]
      simp [FormalIndex.mark]
    · simp [FormalIndex.mark, one, add_assoc]
  | _ :: _ :: _, _, bound => simp at bound

theorem reaches_formal (reached : Reaches text formalNode { multiline := lines } t t') :
    ∃ f : Formal, textFrom text t.pos = f.chars ++ textFrom text t'.pos ∧
      t' = { t with pos := t.pos + f.chars.length } := by
  obtain ⟨m, word, option⟩ := reached
  obtain ⟨name, first, rfl⟩ := reaches_identifier word
  rcases reaches_optional option with rfl | index
  · exact ⟨⟨name, none⟩, first, rfl⟩
  · obtain ⟨i, second, rfl⟩ := reaches_index index
    refine ⟨⟨name, some i⟩, ?_, ?_⟩
    · rw [first, second, Formal.chars]
      simp
    · simp [Formal.chars, add_assoc]

theorem exec_visible {c : Char} (here : textFrom text t.pos = c :: rest) (visible : c ≠ '\n') :
    exec text (.one .any) { multiline := lines } t k = k { t with pos := t.pos + 1 } := by
  have there := head?_of_textFrom here
  rw [head?_cons] at there
  have accepted : Single.any.accepts { multiline := lines } c = true := by rwa [accepts_any, bne_iff_ne]
  simp only [exec, there, accepted, ↓reduceIte]

theorem exec_index (i : FormalIndex) (here : textFrom text t.pos = i.gap.chars ++ i.mark ++ rest)
    (next : k { t with pos := t.pos + (i.gap.chars ++ i.mark).length } = some r) :
    exec text (.group (gap ++ lit "(" ++ .one .any ++ maybe (.char '/') ++ lit ")")) { multiline := lines } t k =
      some r := by
  rw [exec, exec_seq, exec_seq, exec_seq, exec_seq]
  rw [List.append_assoc] at here
  refine exec_gap i.gap here (by rintro c ⟨⟩; decide) (zero_le _) ?_
  have opens : textFrom text (t.pos + i.gap.chars.length) =
      "(".toList ++ i.inner :: ((if i.slash then ['/'] else []) ++ (")".toList ++ rest)) := by
    rw [textFrom_append here]
    simp [FormalIndex.mark]
  refine exec_lit_of_cased rfl opens ?_
  have inner := textFrom_append opens
  rw [exec_visible inner i.visible]
  have behind := textFrom_cons inner
  have one : "(".length = 1 ∧ ")".length = 1 := ⟨rfl, rfl⟩
  cases slashed : i.slash with
  | true =>
    rw [slashed, if_pos rfl, singleton_append] at behind
    refine exec_maybe_of_taken behind (by rw [accepts_char]; rfl) ?_
    refine exec_lit_of_cased rfl (textFrom_cons behind) ?_
    simpa [FormalIndex.mark, slashed, one, add_assoc] using next
  | false =>
    rw [slashed, if_neg Bool.false_ne_true, nil_append] at behind
    refine exec_maybe_of_stop (fun c head => ?_) (exec_lit_of_cased rfl behind ?_)
    · replace head := (congrArg head? behind).symm.trans head
      obtain rfl : ')' = c := Option.some.inj head
      rw [accepts_char]
      rfl
    · simpa [FormalIndex.mark, slashed, one, add_assoc] using next

theorem exec_formal (f : Formal) {g : Gap} (here : textFrom text t.pos = f.chars ++ (g.chars ++ '=' :: rest))
    (next : k { t with pos := t.pos + f.chars.length } = some r) :
    exec text formalNode { multiline := lines } t k = some r := by
  obtain ⟨name, index⟩ := f
  have equals : isBlank '=' = false ∧ isWord '=' = false := by decide
  have parenthesis : isBlank '(' = false ∧ isWord '(' = false := by decide
  rw [formalNode, exec_seq]
  cases index with
  | none =>
    refine exec_identifier name here (g.wordless_head (by rintro c ⟨⟩; exact equals.2)) ?_
    refine exec_optional_of_none ?_ next
    cases found : exec text (.group (gap ++ lit "(" ++ .one .any ++ maybe (.char '/') ++ lit ")"))
        { multiline := lines } { t with pos := t.pos + name.chars.length } k with
    | none => rfl
    | some r =>
      obtain ⟨t', reached, -⟩ := exec_reaches _ _ _ _ _ found
      obtain ⟨i, split, -⟩ := reaches_index reached
      replace split := (textFrom_append here).symm.trans split
      rw [List.append_assoc] at split
      obtain ⟨-, other⟩ := cut_unique split g.blank (by rintro c ⟨⟩; exact equals.1) i.gap.blank
        (by rintro c ⟨⟩; exact parenthesis.1)
      simp [FormalIndex.mark] at other
  | some i =>
    rw [Formal.chars, List.append_assoc] at here
    refine exec_identifier name here ?_ ?_
    · rw [List.append_assoc]
      exact i.gap.wordless_head (by rintro c ⟨⟩; exact parenthesis.2)
    refine exec_optional_of_some (exec_index i (textFrom_append here) ?_)
    simpa [Formal.chars, add_assoc] using next

theorem bindingRow_eq (lines : Bool) : ofNode { multiline := lines } bindingRow =
    { node := start ++ gap ++ .capture 1 (some "port") formalNode ++ gap ++ lit "=>" ++
        .capture 2 (some "bind") (few .any) ++ .capture 3 (some "sep") (maybe (.char ',')) ++
        Node.optional (.capture 4 (some "comment") (spacing ++ lit "--" ++ many .any)) ++ stop
      options := { multiline := lines }
      slots := 5
      names := [("port", 1), ("bind", 2), ("sep", 3), ("comment", 4)] } := rfl

/-- Where the pattern matches, a line begins and a binding is written. -/
theorem exists_binding_of_matchAt {m : Match} {nonempty : Bool}
    (found : (ofNode { multiline := lines } bindingRow).matchAt text pos nonempty = some m) :
    Anchor.holds text { multiline := lines } .lineStart pos = true ∧
      ∃ b : BindingText, ∃ rest, textFrom text pos = b.text ++ rest ∧ EndsLine rest := by
  rw [bindingRow_eq] at found
  obtain ⟨t, ⟨t₈, ⟨t₇, ⟨t₆, ⟨t₅, ⟨t₄, ⟨t₃, ⟨t₂, ⟨t₁, ⟨starts, rfl⟩, blanks⟩, m, formal, rfl⟩, blanks'⟩, arrow⟩,
    m', value, rfl⟩, comma⟩, option⟩, ends⟩, rfl⟩ := matchAt_reaches found
  obtain ⟨lead, first, -, rfl⟩ := reaches_gap blanks
  obtain ⟨f, second, rfl⟩ := reaches_formal formal
  obtain ⟨g, third, -, rfl⟩ := reaches_gap blanks'
  obtain ⟨fourth, rfl⟩ := reaches_cased rfl arrow
  obtain ⟨seg, fifth, visible, rfl⟩ := reaches_visible value
  obtain ⟨u, sixth, visible', -, feed⟩ := reaches_rowEnd comma option ends
  refine ⟨starts, ⟨lead, f, g, seg ++ u, by simp [visible, visible']⟩, _, ?_, feed⟩
  rw [first, second, third, fourth, fifth, sixth]
  simp [BindingText.text]

section

variable {m : Match} {name : String} (slot : Nat) (listed : m.names.lookup name = some (slot + 1))
include slot listed

theorem named_of_span {start stop : Nat} {seg tail : List Char}
    (span : m.spans[slot + 1]? = some (some (start, stop))) (stretch : stop = start + seg.length)
    (here : textFrom m.source start = seg ++ tail) : m.named name = ofList seg := by
  rw [Match.named, Match.named?_of_span listed span stretch here, Option.getD_some]

theorem named_of_unset (span : m.spans[slot + 1]? = some none) : m.named name = "" := by
  simp [Match.named, Match.named?, listed, Match.group?, Match.span?, span]

end

theorem exec_value {body : List Char} {spans : Array (Option (Nat × Nat))}
    (single : lines = true ∨ '\n' ∉ text.toList) (inside : pos ≤ text.size)
    (here : textFrom text pos = body ++ rest) (visible : '\n' ∉ body) (feed : EndsLine rest) :
    exec text (.capture 2 (some "bind") (few .any)) { multiline := lines } ⟨pos, spans⟩ (afterValue text lines) =
      some ⟨pos + body.length, endSpans ⟨pos + (valuePart body).length,
        spans.setIfInBounds 2 (some (pos, pos + (valuePart body).length))⟩ (hasComma body) (commentPart body)⟩ := by
  have whole := body_parts body
  have split := here
  rw [whole, List.append_assoc, List.append_assoc] at split
  have length : (valuePart body).length + ((if hasComma body then 1 else 0) + (commentPart body).length) =
      body.length := by
    conv_rhs => rw [whole]
    cases hasComma body <;> simp [Nat.add_comm]
  have bound : pos + body.length ≤ text.size := by
    have size := textFrom_length text pos
    rw [here, List.length_append] at size
    omega
  rw [exec_capture]
  refine exec_few_of_segment split (fun c member => ?_) (fun i early => ?_) ?_
  · rw [accepts_any, bne_iff_ne]
    rintro rfl
    exact visible (whole ▸ mem_append_left _ member)
  · have behind : textFrom text (pos + i) = body.drop i ++ rest := by
      rw [textFrom_add, here, drop_append_of_le_length (by omega)]
    exact afterValue_eq_none behind (fun member => visible (mem_of_mem_drop member)) feed (endsValue_early early)
  · rw [afterValue_of_parts single (by dsimp only; omega) (textFrom_append split) (closesRow_comment body)
      (fun member => visible (whole ▸ by simp [member])) feed]
    dsimp only
    rw [add_assoc, length]

theorem Formal.solid_head (f : Formal) (rest : List Char) :
    Stops isBlank (f.chars ++ rest) := by
  obtain ⟨name, index⟩ := f
  cases index with
  | none => exact name.blankless_head rest
  | some i =>
    rw [Formal.chars, List.append_assoc]
    exact name.blankless_head _

/-- Where a line begins with a binding, the pattern takes the line, and its groups are the parts of the binding. -/
theorem matchAt_of_binding (single : lines = true ∨ '\n' ∉ text.toList)
    (starts : Anchor.holds text { multiline := lines } .lineStart pos = true) (inside : pos ≤ text.size)
    (b : BindingText) (here : textFrom text pos = b.text ++ rest) (feed : EndsLine rest) :
    ∃ m, (ofNode { multiline := lines } bindingRow).matchAt text pos false = some m ∧
      m.stop = pos + b.text.length ∧ m.named "port" = ofList b.formal.chars ∧
      m.named "bind" = ofList (valuePart b.body) ∧
      m.named "sep" = ofList (if hasComma b.body then [','] else []) ∧
      m.named "comment" = ofList (commentPart b.body) := by
  obtain ⟨lead, f, g, body, visible⟩ := b
  simp only [BindingText.text, List.append_assoc] at here
  have atFormal := textFrom_append here
  have atGap := textFrom_append atFormal
  have atArrow := textFrom_append atGap
  have atBody := textFrom_append atArrow
  obtain ⟨start, start_eq⟩ : ∃ start, start = pos + lead.chars.length := ⟨_, rfl⟩
  obtain ⟨place, place_eq⟩ : ∃ place, place = start + f.chars.length + g.chars.length + "=>".length := ⟨_, rfl⟩
  rw [length_toList, ← start_eq, ← place_eq] at atBody
  rw [← start_eq] at atFormal atGap atArrow
  have inside' : place ≤ text.size := by
    have size := textFrom_length text pos
    rw [here] at size
    simp only [List.length_append, length_toList] at size
    omega
  have run : exec text (ofNode { multiline := lines } bindingRow).node
      (ofNode { multiline := lines } bindingRow).options
      ⟨pos, Array.replicate (ofNode { multiline := lines } bindingRow).slots none⟩ some =
        some ⟨place + body.length, endSpans ⟨place + (valuePart body).length,
            #[none, some (start, start + f.chars.length), some (place, place + (valuePart body).length), none, none]⟩
            (hasComma body) (commentPart body)⟩ := by
    rw [bindingRow_eq]
    dsimp only
    rw [exec_seq, exec_seq, exec_seq, exec_seq, exec_seq, exec_seq, exec_seq, exec_seq, Node.start,
      exec_anchor_of_holds starts]
    refine exec_gap lead here (f.solid_head _) (zero_le _) ?_
    dsimp only
    rw [← start_eq, exec_capture]
    refine exec_formal f (show _ = f.chars ++ (g.chars ++ '=' :: ('>' :: (body ++ rest))) from atFormal) ?_
    refine exec_gap g atGap (by rintro c ⟨⟩; decide) (zero_le _) (exec_lit_of_cased rfl atArrow ?_)
    dsimp only
    rw [← place_eq]
    exact exec_value single inside' atBody visible feed
  have parts := atBody
  rw [body_parts body, List.append_assoc, List.append_assoc] at parts
  have behind := textFrom_append parts
  refine ⟨_, matchAt_of_exec rfl inside run, ?_, ?_, ?_, ?_, ?_⟩
  · simp only [BindingText.text, List.length_append, length_toList]
    omega
  · refine named_of_span 0 rfl ?_ rfl atFormal
    rw [endSpans_keeps (by decide) (by decide)]
    rfl
  · refine named_of_span 1 rfl ?_ rfl parts
    rw [endSpans_keeps (by decide) (by decide)]
    rfl
  · refine named_of_span 2 rfl (endSpans_comma rfl) ?_ behind
    cases hasComma body <;> rfl
  · cases empty : (commentPart body).isEmpty with
    | true =>
      rw [isEmpty_iff.mp empty]
      exact named_of_unset 3 rfl (endSpans_comment rfl rfl)
    | false =>
      have last : textFrom text (if hasComma body then place + (valuePart body).length + 1 else
          place + (valuePart body).length) = commentPart body ++ rest := by
        have last := textFrom_append behind
        cases comma : hasComma body <;> simpa [comma] using last
      exact named_of_span 3 rfl ((endSpans_comment rfl rfl).trans (by rw [empty, if_neg Bool.false_ne_true])) rfl last

end Matching

end VhdlWorkbench.Layout

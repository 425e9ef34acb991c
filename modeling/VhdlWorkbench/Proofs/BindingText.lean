import VhdlWorkbench.Proofs.BindingRows
import VhdlWorkbench.Proofs.TrimmedLines

/-!
Aligning the content of a map moves blanks only.
-/

namespace VhdlWorkbench.Layout

open Pattern Pattern.Node Design List String Text Regex

def opensWord (cs : List Char) : Bool :=
  (cs.dropWhile isSpace).head?.any isWord

/-- A text with a line broken behind each comma that a word follows; `skip` tells that a line has just been broken,
and that spaces are left out. -/
def breakCommas : Bool → List Char → List Char
  | _, [] => []
  | skip, c :: cs =>
    if skip && isSpace c then breakCommas true cs
    else if c == ',' && opensWord cs then ',' :: '\n' :: breakCommas true cs
    else c :: breakCommas false cs

variable {text : Array Char} {pos : Nat} {cs : List Char}

theorem breakCommas_spaces {spaces : List Char} (blank : ∀ c ∈ spaces, isSpace c = true) (cs : List Char) :
    breakCommas true (spaces ++ cs) = breakCommas true cs := by
  induction spaces with
  | nil => rfl
  | cons c spaces ih =>
    rw [forall_mem_cons] at blank
    rw [cons_append, breakCommas, if_pos (by simp [blank.1]), ih blank.2]

theorem not_space_of_isWord {c : Char} (wordy : isWord c = true) : isSpace c = false := by
  cases space : isSpace c with
  | false => rfl
  | true => simpa [isBlank_of_isSpace space] using isBlank_of_isWord wordy

theorem breakCommas_word {word : List Char} (skip : Bool) (nonempty : word ≠ [])
    (wordy : ∀ c ∈ word, isWord c = true) (cs : List Char) :
    breakCommas skip (word ++ cs) = word ++ breakCommas false cs := by
  induction word generalizing skip with
  | nil => exact absurd rfl nonempty
  | cons c word ih =>
    rw [forall_mem_cons] at wordy
    have other : c ≠ ',' := by
      rintro rfl
      exact absurd wordy.1 (by decide)
    rw [cons_append, breakCommas, if_neg (by simp [not_space_of_isWord wordy.1]), if_neg (by simp [other])]
    cases word with
    | nil => rfl
    | cons d word => rw [ih false (cons_ne_nil d word) wordy.2, cons_append]; rfl

theorem nextBinding_eq :
    nextBinding = { node := lit "," ++ spacing ++ .capture 1 none identifier, slots := 2 } := rfl

theorem opens_of_nextBinding {m : Match} {nonempty : Bool}
    (found : nextBinding.matchAt text pos nonempty = some m) :
    ∃ cs, textFrom text pos = ',' :: cs ∧ opensWord cs = true := by
  rw [nextBinding_eq] at found
  obtain ⟨t, ⟨t₂, ⟨t₁, comma, blanks⟩, m', word, rfl⟩, rfl⟩ := matchAt_reaches found
  obtain ⟨first, -⟩ := reaches_cased rfl comma
  obtain ⟨spaces, second, blank, -⟩ := reaches_spaces blanks
  obtain ⟨name, third, -⟩ := reaches_identifier word
  refine ⟨textFrom text t₁.pos, first, ?_⟩
  obtain ⟨c, letters, form⟩ := exists_cons_of_ne_nil name.nonempty
  have wordy := name.wordy c (form ▸ mem_cons_self)
  rw [second, third, form, opensWord, dropWhile_append_of_pos blank, cons_append,
    dropWhile_cons_of_neg (by simp [not_space_of_isWord wordy])]
  exact wordy

theorem nextBinding_matchAt {spaces tail : List Char} (blank : ∀ c ∈ spaces, isSpace c = true)
    (name : Identifier) (here : textFrom text pos = ",".toList ++ (spaces ++ (name.chars ++ tail)))
    (stops : Stops isWord tail) :
    ∃ m, nextBinding.matchAt text pos false = some m ∧ m.start = pos ∧
      m.stop = pos + ",".length + spaces.length + name.chars.length ∧ m.group 1 = ofList name.chars := by
  have atSpaces := textFrom_append here
  have atName := textFrom_append atSpaces
  have inside := lt_size_of_textFrom here (by simp)
  obtain ⟨start, start_eq⟩ : ∃ start, start = pos + ",".length + spaces.length := ⟨_, rfl⟩
  rw [length_toList, ← start_eq] at atName
  have run : exec text nextBinding.node nextBinding.options ⟨pos, Array.replicate nextBinding.slots none⟩ some =
      some ⟨start + name.chars.length, #[none, some (start, start + name.chars.length)]⟩ := by
    rw [nextBinding_eq]
    dsimp only
    rw [exec_seq, exec_seq]
    refine exec_lit_of_cased rfl here ?_
    refine exec_run_of_segment atSpaces (fun c member => by rw [accepts_spaces, blank c member]) ?_ (Nat.zero_le _) ?_
    · intro c head
      rw [head?_append_of_ne_nil _ name.nonempty] at head
      rw [accepts_spaces, not_space_of_isWord (name.wordy c (mem_of_head? head))]
    dsimp only
    rw [← start_eq, exec_capture]
    exact exec_identifier name atName stops rfl
  refine ⟨_, matchAt_of_exec rfl (Nat.le_of_lt inside) run, rfl, by rw [start_eq], ?_⟩
  exact Match.group_of_span rfl atName

theorem opensWord_iff : opensWord cs = true ↔
    ∃ spaces c tail, cs = spaces ++ c :: tail ∧ (∀ c ∈ spaces, isSpace c = true) ∧ isWord c = true := by
  constructor
  · intro opens
    rw [opensWord] at opens
    cases form : cs.dropWhile isSpace with
    | nil => simp [form] at opens
    | cons c tail =>
      refine ⟨cs.takeWhile isSpace, c, tail, ?_, fun c => mem_takeWhile_imp, by simpa [form] using opens⟩
      rw [← form, List.takeWhile_append_dropWhile]
  · rintro ⟨spaces, c, tail, rfl, blank, wordy⟩
    rw [opensWord, dropWhile_append_of_pos blank,
      dropWhile_cons_of_neg (by simp [not_space_of_isWord wordy])]
    exact wordy

theorem exists_word_of_opensWord (opens : opensWord cs = true) :
    ∃ spaces tail, ∃ name : Identifier, cs = spaces ++ (name.chars ++ tail) ∧ (∀ c ∈ spaces, isSpace c = true) ∧
      Stops isWord tail := by
  obtain ⟨spaces, c, tail, rfl, blank, wordy⟩ := opensWord_iff.mp opens
  refine ⟨spaces, tail.dropWhile isWord, ⟨c :: tail.takeWhile isWord, cons_ne_nil _ _, ?_⟩,
    ?_, blank, ?_⟩
  · exact forall_mem_cons.mpr ⟨wordy, fun d => mem_takeWhile_imp⟩
  · rw [List.cons_append, List.takeWhile_append_dropWhile]
  · intro d head
    have stops := head?_dropWhile_not isWord tail
    rw [head] at stops
    simpa using stops

/-- The text from a place on with its lines broken is what replacing the matches from there on gives. -/
def BreaksAt (text : Array Char) (pos : Nat) (ms : List Match) : Prop :=
  (∀ m, ms.head? = some m → pos ≤ m.start) ∧
    splice text (fun m => (",\n" ++ m.group 1).toList) pos ms = breakCommas false (textFrom text pos)

theorem breaks_beyond (outside : text.size < pos) : BreaksAt text pos [] := by
  have nothing : textFrom text pos = [] := drop_eq_nil_of_le (by simpa using Nat.le_of_lt outside)
  refine ⟨by simp, ?_⟩
  rw [splice, segment_eq_take, nothing, take_nil, breakCommas]

theorem breaks_skip {ms : List Match} (fails : nextBinding.matchAt text pos false = none)
    (later : BreaksAt text (pos + 1) ms) : BreaksAt text pos ms := by
  obtain ⟨late, spliced⟩ := later
  refine ⟨fun m head => Nat.le_of_succ_le (late m head), ?_⟩
  rw [splice_of_late (Nat.le_succ pos) late, spliced, segment_eq_take]
  cases here : textFrom text pos with
  | nil => simp [textFrom_add, here]
  | cons c cs =>
    have goes : ¬(c == ',' && opensWord cs) = true := by
      intro breaks
      rw [Bool.and_eq_true, beq_iff_eq] at breaks
      obtain ⟨spaces, tail, name, rfl, blank, stops⟩ := exists_word_of_opensWord breaks.2
      obtain ⟨m, found, -⟩ := nextBinding_matchAt blank name (breaks.1 ▸ here) stops
      simp [fails] at found
    rw [textFrom_cons here, breakCommas, if_neg (by simp), if_neg goes]
    simp

theorem breaks_take {m : Match} {ms : List Match} (found : nextBinding.matchAt text pos false = some m)
    (later : BreaksAt text m.stop ms) : BreaksAt text pos (m :: ms) := by
  obtain ⟨cs, here, opens⟩ := opens_of_nextBinding found
  obtain ⟨spaces, tail, name, rfl, blank, stops⟩ := exists_word_of_opensWord opens
  obtain ⟨m', found', start, stop, word⟩ := nextBinding_matchAt blank name here stops
  obtain rfl : m = m' := Option.some.inj (found.symm.trans found')
  have behind : textFrom text m.stop = tail := by
    rw [stop]
    exact textFrom_append (textFrom_append (textFrom_append (show _ = ",".toList ++ _ from here)))
  refine ⟨fun m' head => by rw [← Option.some.inj head, start], ?_⟩
  -- The match takes the spaces and the word as well, where the line is not broken again.
  rw [splice, later.2, behind, here, breakCommas, if_neg (by decide), if_pos (by simp [opens]),
    breakCommas_spaces blank, breakCommas_word true name.nonempty name.wordy, start, word]
  simp [Pattern.segment]

theorem replace_nextBinding (s : String) :
    nextBinding.replaceBy (fun m => ",\n" ++ m.group 1) s = ofList (breakCommas false s.toList) := by
  have breaks : BreaksAt s.toList.toArray 0 (nextBinding.matches_ s) :=
    matchesFrom_rec rfl (fun _ _ => stop_gt_of_matchAt (by decide)) (fun _ => breaks_beyond) (fun _ _ => breaks_skip)
      (fun _ _ _ => breaks_take) (by omega)
  rw [replaceBy, breaks.2, textFrom_zero]

/-- What a row shows of the rest of its line: the actual value, whether a comma follows it, and the comment. -/
structure Cells where
  value : List Char
  comma : Bool
  comment : List Char

def cells (body : List Char) : Cells :=
  ⟨trimmed (valuePart body), hasComma body, trimmed (commentPart body)⟩

def padTo (width : Nat) (cs : List Char) : List Char :=
  cs ++ List.replicate (width - cs.length) ' '

def Cells.chars (bindWidth : Nat) (row : Cells) : List Char :=
  padTo bindWidth row.value ++ ((if row.comma then ',' else ' ') ::
    (if row.comment = [] then [] else ' ' :: row.comment))

def rowChars (portWidth bindWidth : Nat) (formal : List Char) (row : Cells) : List Char :=
  padTo portWidth formal ++ (" => ".toList ++ row.chars bindWidth)

theorem Formal.isTrimmed (f : Formal) : Text.IsTrimmed f.chars := by
  refine ⟨by simpa using f.solid_head [], fun c last => ?_⟩
  obtain ⟨name, index⟩ := f
  cases index with
  | none => exact name.solid c (mem_of_getLast? last)
  | some i =>
    obtain rfl : ')' = c := by
      simpa [Formal.chars, FormalIndex.mark, getLast?_append, getLast?_cons] using last
    decide

theorem comment_eq_nil_iff (body : List Char) : (cells body).comment = [] ↔ commentPart body = [] := by
  refine ⟨fun empty => ?_, fun none => by rw [cells, none]; rfl⟩
  rcases closesRow_iff.mp (closesRow_comment body) with none | ⟨spaces, more, form, -⟩
  · exact none
  · have blank := trimmed_eq_nil_iff.mp empty '-' (by simp [form])
    exact absurd blank (by decide)

theorem toList_padRight (width : Nat) (s : String) : (padRight width s).toList = padTo width s.toList := by
  simp [padRight, spaces, padTo, length_toList]

theorem toList_trim_ofList (cs : List Char) : (Text.trim (ofList cs)).toList = Text.trimmed cs := by
  rw [trim_eq, toList_ofList, toList_ofList]

theorem toList_tabs (level : Int) : (tabs level).toList = List.replicate level.toNat '\t' := by
  rw [tabs, times]
  induction level.toNat with
  | zero => rfl
  | succ n ih => rw [replicate_succ, join_cons, toList_append, ih]; rfl

theorem lineStart_zero (text : Array Char) : Anchor.holds text { multiline := false } .lineStart 0 = true := rfl

theorem renderBinding_of_binding (level : Int) (portWidth bindWidth : Nat) (b : BindingText) (single : '\n' ∉ b.text) :
    (renderBinding level portWidth bindWidth (ofList b.text)).toList =
      (tabs level).toList ++ rowChars portWidth bindWidth b.formal.chars (cells b.body) := by
  have here : textFrom b.text.toArray 0 = b.text ++ [] := by rw [textFrom_zero, append_nil]
  obtain ⟨m, found, -, port, value, sep, comment⟩ :=
    matchAt_of_binding (Or.inr (by simpa using single)) (lineStart_zero _) (Nat.zero_le _) b here
      (by simp [EndsLine])
  have first : (ofNode {} bindingRow).matchStart? (ofList b.text) = some m := by
    rw [matchStart?, toList_ofList]
    exact found
  simp only [renderBinding, first, port, value, sep, comment, toList_append, toList_padRight,
    toList_trim_ofList, trimmed_of_isTrimmed b.formal.isTrimmed, rowChars, Cells.chars, comment_eq_nil_iff]
  cases comma : hasComma b.body <;> by_cases none : commentPart b.body = [] <;>
    simp [cells, comma, none, toList_trim_ofList]

theorem renderBinding_of_other (level : Int) (portWidth bindWidth : Nat) {line : List Char} (single : '\n' ∉ line)
    (other : ∀ b : BindingText, b.text ≠ line) :
    (renderBinding level portWidth bindWidth (ofList line)).toList =
      (tabs level).toList ++ Text.trimmed line := by
  have none : (ofNode {} bindingRow).matchStart? (ofList line) = none := by
    rw [matchStart?, toList_ofList, Option.eq_none_iff_forall_not_mem]
    intro m found
    obtain ⟨-, b, rest, whole, feed⟩ := exists_binding_of_matchAt found
    rw [textFrom_zero] at whole
    cases rest with
    | nil => exact other b (by rw [whole, append_nil])
    | cons c rest => exact single (by simp [whole, feed c rfl])
  simp only [renderBinding, none, toList_append, toList_trim_ofList]

theorem solids_padTo (width : Nat) (cs : List Char) : solids (padTo width cs) = solids cs := by
  have spaces (n : Nat) : solids (replicate n ' ') = [] := by
    refine solids_of_blank fun c member => ?_
    rw [eq_of_mem_replicate member]
    decide
  rw [padTo, solids_append, spaces, append_nil]

theorem solids_rowChars (portWidth bindWidth : Nat) (b : BindingText) :
    solids (rowChars portWidth bindWidth b.formal.chars (cells b.body)) = solids b.text := by
  have comment : solids (if (cells b.body).comment = [] then [] else ' ' :: (cells b.body).comment) =
      solids (commentPart b.body) := by
    split
    · next none => rw [(comment_eq_nil_iff b.body).mp none]
    · exact (solids_append [' '] _).trans (solids_trimmed _)
  have sep : solids [if hasComma b.body then ',' else ' '] =
      solids (if hasComma b.body then [','] else []) := by
    split <;> rfl
  have body := congrArg solids (body_parts b.body)
  rw [solids_append, solids_append] at body
  have row : rowChars portWidth bindWidth b.formal.chars (cells b.body) =
      padTo portWidth b.formal.chars ++ (" => ".toList ++ (padTo bindWidth (trimmed (valuePart b.body)) ++
        ([if hasComma b.body then ',' else ' '] ++
          (if (cells b.body).comment = [] then [] else ' ' :: (cells b.body).comment)))) := rfl
  rw [row, BindingText.text]
  simp only [solids_append, solids_padTo, solids_trimmed, sep, comment, body,
    solids_of_blank b.lead.blank, solids_of_blank b.gap.blank]
  rfl

theorem solids_tabs (level : Int) : solids (tabs level).toList = [] := by
  refine solids_of_blank fun c member => ?_
  rw [toList_tabs] at member
  rw [eq_of_mem_replicate member]
  decide

theorem solids_renderBinding (level : Int) (portWidth bindWidth : Nat) {line : List Char} (single : '\n' ∉ line) :
    solids (renderBinding level portWidth bindWidth (ofList line)).toList = solids line := by
  by_cases row : ∃ b : BindingText, b.text = line
  · obtain ⟨b, rfl⟩ := row
    rw [renderBinding_of_binding level portWidth bindWidth b single, solids_append, solids_tabs, nil_append,
      solids_rowChars]
  · rw [renderBinding_of_other level portWidth bindWidth single fun b same => row ⟨b, same⟩, solids_append,
      solids_tabs, nil_append, solids_trimmed]

theorem solids_breakCommas (skip : Bool) (cs : List Char) : solids (breakCommas skip cs) = solids cs := by
  fun_induction breakCommas skip cs with
  | case1 => rfl
  | case2 skip c cs skipped ih =>
    rw [Bool.and_eq_true] at skipped
    rw [ih, solids, solids, filter_cons_of_neg (by simp [isBlank_of_isSpace skipped.2])]
  | case3 skip c cs kept breaks ih =>
    rw [Bool.and_eq_true, beq_iff_eq] at breaks
    rw [breaks.1]
    exact congrArg (',' :: ·) ih
  | case4 skip c cs kept goes ih => rw [← singleton_append, solids_append, ih, ← solids_append]; rfl

/-- The text of a map before its lines are laid out. -/
def broken (text : String) : List Char :=
  breakCommas false (trimmed text.toList)

def bindingWidth (cs : List Char) (part : String) : Nat :=
  columnWidth ((ofNode { multiline := true } bindingRow).matches_ (ofList cs)) part

def layLine (level : Int) (portWidth bindWidth : Nat) (line : List Char) : List Char :=
  (renderBinding level portWidth bindWidth (ofList line)).toList

theorem alignBinding_toList (text : String) (level : Int) : (alignBinding text level).toList =
    Text.unlines ((linesFrom [] (broken text)).map
      (layLine level (bindingWidth (broken text) "port") (bindingWidth (broken text) "bind"))) := by
  have joined (ls : List (List Char)) (f : String → String) :
      (join ((ls.map ofList).map fun line => f line ++ "\n")).toList =
        Text.unlines (ls.map fun l => (f (ofList l)).toList) := by
    induction ls with
    | nil => rfl
    | cons l ls ih =>
      simp only [List.map_cons, join_cons, toList_append, ih, Text.unlines_cons, List.append_assoc]
      rfl
  rw [alignBinding, replace_nextBinding, Text.trim_eq, toList_ofList, Text.lines, toList_ofList, joined]
  rfl

/-- Laying out the content of a map moves blanks only. -/
theorem align_keeps_solids (text : String) (level : Int) :
    solids (alignBinding text level).toList = solids text.toList := by
  have kept (portWidth bindWidth : Nat) : ((linesFrom [] (broken text)).map
      (layLine level portWidth bindWidth)).flatMap solids =
        (linesFrom [] (broken text)).flatMap solids := by
    rw [flatMap_map]
    refine flatMap_congr fun l member => ?_
    exact solids_renderBinding level _ _ (feed_not_mem_of_mem_linesFrom not_mem_nil member)
  rw [alignBinding_toList, solids_unlines, kept, solids_linesFrom, reverse_nil, nil_append, broken,
    solids_breakCommas, solids_trimmed]

end VhdlWorkbench.Layout

import VhdlWorkbench.Design.Subprogram
import VhdlWorkbench.Proofs.ReadableForms
import VhdlWorkbench.Proofs.TextCuts
import VhdlWorkbench.Source.Comment

/-!
The functions of a text of prototypes and bodies: a prototype takes the header of the next body.
-/

namespace VhdlWorkbench.Design

open String (ofList ofList_append toList_ofList)
open Pattern Pattern.Node Declaration List Option Text Source Regex

def readsFunction : PlaceKind :=
  fun _ cs => decide (Reads "function" (cs.take 8))

/-- A word begins with the letters `is`. -/
def opensIs : PlaceKind :=
  fun inside cs => !inside && decide (Reads "is" (cs.take 2))

/-- The header of a function up to its semicolon or its word `is`. -/
structure FunctionHead where
  keyword : Keyword "function"
  beforeName : Space
  name : Identifier
  beforeParen : Gap
  args : List Char
  beforeReturn : Gap
  word : Keyword "return"
  ret : List Char
  unclosed : ')' ∉ args

namespace FunctionHead

variable (h : FunctionHead)

def upToReturn (rest : List Char) : List Char :=
  h.keyword.chars ++ (h.beforeName.chars ++ (h.name.chars ++ (h.beforeParen.chars ++ '(' ::
    (h.args ++ ')' :: (h.beforeReturn.chars ++ (h.word.chars ++ rest))))))

def write (rest : List Char) : List Char :=
  h.upToReturn (h.ret ++ rest)

theorem upToReturn_append (a b : List Char) : h.upToReturn (a ++ b) = h.upToReturn a ++ b := by
  simp [upToReturn]

theorem write_append (a b : List Char) : h.write (a ++ b) = h.write a ++ b := by
  rw [write, write, ← append_assoc, upToReturn_append]

theorem write_nil : h.write [] = h.upToReturn [] ++ h.ret := by
  rw [write, append_nil, ← upToReturn_append, nil_append]

end FunctionHead

inductive FunctionItem
  | prototype (head : FunctionHead) (after : List Char)
  | body (head : FunctionHead) (word : Keyword "is") (after : List Char)

def itemsText : List FunctionItem → List Char
  | [] => []
  | .prototype h after :: rest => h.write (';' :: (after ++ itemsText rest))
  | .body h word after :: rest => h.write (word.chars ++ (after ++ itemsText rest))

/-- The text before the word `is` of the next body. -/
def upToIs : List FunctionItem → List Char
  | [] => []
  | .prototype h after :: rest => h.write (';' :: (after ++ upToIs rest))
  | .body h _ _ :: _ => h.write []

/-- The headers that are read. A prototype waits for the word `is` of the next body, and takes its place. -/
def readHeads : Option FunctionHead → List FunctionItem → List FunctionHead
  | _, [] => []
  | waiting, .prototype h _ :: rest => readHeads (waiting.getD h) rest
  | waiting, .body h _ _ :: rest => waiting.getD h :: readHeads none rest

/-- No function begins in the text, and it does not end in a word. -/
def Silent (cs : List Char) : Prop :=
  occurs readsFunction false cs = false ∧ ∀ c, cs.getLast? = some c → isWord c = false

/-- The words `is` of the bodies are the only words that begin so. -/
def Plain : List FunctionItem → Prop
  | [] => True
  | .prototype h after :: rest =>
    occurs opensIs false (upToIs (.prototype h after :: rest)) = false ∧ Silent after ∧ Plain rest
  | .body h _ after :: rest =>
    occurs opensIs false (h.write []) = false ∧ (∃ c, h.ret.getLast? = some c ∧ isWord c = false) ∧
      Silent after ∧ Plain rest

theorem length_le_itemsText (items : List FunctionItem) : items.length ≤ (itemsText items).length := by
  induction items with
  | nil => exact Nat.le_refl 0
  | cons item items ih =>
    cases item <;> simp [itemsText, FunctionHead.write, FunctionHead.upToReturn] <;> omega

section

variable {text : Array Char} {pos i : Nat} {cs rest : List Char}

theorem take_of_word {w tail : List Char} (inside : i < cs.length)
    (there : cs.drop i ++ rest = w ++ tail) (wordy : ∀ c ∈ w, isWord c = true)
    (closes : rest ≠ [] → ∀ c, cs.getLast? = some c → isWord c = false) : (cs.drop i).take w.length = w := by
  rcases append_eq_append_iff.mp there with ⟨more, longer, behind⟩ | ⟨more, shorter, -⟩
  · rcases eq_nil_or_concat more with rfl | ⟨init, c, rfl⟩
    · rw [append_nil] at longer
      rw [← longer, take_length]
    · have left : cs.drop i ≠ [] := by simpa using inside
      have last : cs.getLast? = some ((cs.drop i).getLast left) := by
        rw [← getLast?_eq_some_getLast left, getLast?_drop, if_neg (by omega)]
      have other := closes (by simp [behind]) _ last
      rw [wordy _ (by rw [longer]; exact mem_append_left _ (getLast_mem left))] at other
      exact absurd other (by decide)
  · rw [shorter, take_left]

instance : Folds headerOptions where
  full := rfl
  fold := rfl

theorem not_reaches_is (free : occurs opensIs false cs = false) (here : textFrom text pos = cs ++ rest)
    (closes : rest ≠ [] → ∀ c, cs.getLast? = some c → isWord c = false) (inside : i < cs.length)
    {t t' : Thread} (place : t.pos = pos + i) :
    ¬Reaches text (edge ++ .capture 5 (some "term") (lit "is")) headerOptions t t' := by
  rintro ⟨_, ⟨edged, rfl⟩, _, letters, rfl⟩
  obtain ⟨w, reads, there, rfl⟩ := reaches_word letters
  have wordy := reads.wordy (by decide)
  obtain ⟨c, ws, split⟩ := exists_cons_of_ne_nil (ne_nil_of_length_eq_add_one reads.length_eq)
  have first : text[pos + i]? = some c := by
    rw [← place, head?_of_textFrom there, split]
    rfl
  have flag : flagAt false cs i = false := by
    rw [flagAt]
    split
    · rfl
    · next positive =>
      rw [place] at edged
      have before := (wordEdge_before_iff first (wordy c (by simp [split]))).mp edged
      rw [show pos + i - 1 = pos + (i - 1) by omega, getElem?_textFrom, here, getElem?_append_left (by omega)]
        at before
      cases at_ : cs[i - 1]? with
      | none => rfl
      | some d => exact before d at_ (by omega)
  rw [place, textFrom_add, here, drop_append_of_le_length (Nat.le_of_lt inside)] at there
  have read : (cs.drop i).take 2 = w := by
    rw [← show w.length = 2 from reads.length_eq]
    exact take_of_word inside there wordy closes
  have none := not_occurs free inside
  rw [flag, opensIs, read] at none
  exact absurd none (by simp [reads])

theorem matchAt_silent (silent : Silent cs) (here : textFrom text pos = cs ++ rest)
    (inside : i < cs.length) : functionHeader.matchAt text (pos + i) false = none := by
  rw [eq_none_iff_forall_not_mem]
  intro m found
  obtain ⟨_, _, letters, -⟩ := matchAt_front 11 found
  have function : Reaches text (lit "function") headerOptions _ _ := letters
  obtain ⟨w, reads, there, -⟩ := reaches_word function
  rw [textFrom_add, here, drop_append_of_le_length (Nat.le_of_lt inside)] at there
  have read : (cs.drop i).take 8 = w := by
    rw [← show w.length = 8 from reads.length_eq]
    exact take_of_word inside there (reads.wordy (by decide)) fun _ => silent.2
  have none := not_occurs silent.1 inside
  rw [readsFunction, read] at none
  exact absurd none (by simp [reads])

/-- The thread behind the next word `is`, from the word `function` on. -/
def headThread (h : FunctionHead) (word : Keyword "is") (extra : List Char) (pos : Nat) : Thread :=
  let name := pos + h.keyword.chars.length + h.beforeName.chars.length
  let args := name + h.name.chars.length + h.beforeParen.chars.length + 1
  let ret := args + h.args.length + 1 + h.beforeReturn.chars.length + h.word.chars.length
  let is := ret + (h.ret ++ extra).length
  ⟨is + word.chars.length, #[none, some (pos, pos + h.keyword.chars.length), some (name, name + h.name.chars.length),
    some (args, args + h.args.length), some (ret, is), some (is, is + word.chars.length)]⟩

/-- The header of a function that ends with the next word `is` is matched. -/
theorem matchAt_head (h : FunctionHead) (word : Keyword "is") {extra : List Char}
    (here : textFrom text pos = h.write (extra ++ (word.chars ++ rest)))
    (free : occurs opensIs false (h.write extra) = false)
    (closes : ∃ c, (h.ret ++ extra).getLast? = some c ∧ isWord c = false) :
    ∃ m, functionHeader.matchAt text pos false = some m ∧ textFrom text m.stop = rest ∧
      m.named "name" = ofList h.name.chars ∧ m.named "args" = ofList h.args := by
  obtain ⟨last, ends, other⟩ := closes
  let is := word.identifier (by decide) (by decide)
  let back := h.word.identifier (by decide) (by decide)
  obtain ⟨c, cs, letters⟩ := exists_cons_of_ne_nil is.nonempty
  have whole : textFrom text pos = h.write extra ++ (word.chars ++ rest) := by rw [here, h.write_append]
  have parts : textFrom text pos = h.keyword.chars ++ (h.beforeName.chars ++ (h.name.chars ++ (h.beforeParen.chars ++
      ('(' :: (h.args ++ (')' :: (h.beforeReturn.chars ++ (h.word.chars ++ ((h.ret ++ extra) ++
        (word.chars ++ rest)))))))))) := by
    rw [here, FunctionHead.write, FunctionHead.upToReturn, append_assoc]
  have atSpace := textFrom_append parts
  have atName := textFrom_append atSpace
  have atGap := textFrom_append atName
  have atParen := textFrom_append atGap
  have atArgs := textFrom_cons atParen
  have atClose := textFrom_append atArgs
  have atBlanks := textFrom_cons atClose
  have atReturn := textFrom_append atBlanks
  have atRet := textFrom_append atReturn
  have atIs := textFrom_append atRet
  have size : (h.write extra).length = h.keyword.chars.length + h.beforeName.chars.length + h.name.chars.length +
      h.beforeParen.chars.length + 1 + h.args.length + 1 + h.beforeReturn.chars.length + h.word.chars.length +
        (h.ret ++ extra).length := by
    simp [FunctionHead.write, FunctionHead.upToReturn]
    omega
  have run : exec text functionHeader.node headerOptions ⟨pos, Array.replicate 6 none⟩ some =
      some (headThread h word extra pos) := by
    show exec text (.capture 1 (some "type") (lit "function") ++ gap1 ++ .capture 2 (some "name") identifier ++ gap ++
      lit "(" ++ .capture 3 (some "args") (few .any) ++ lit ")" ++ gap ++ lit "return" ++
      .capture 4 (some "ret") (few .any) ++ edge ++ .capture 5 (some "term") (lit "is")) _ _ _ = _
    simp only [exec_seq, exec_capture]
    refine exec_keyword h.keyword (by decide) parts ?_
    refine exec_gap h.beforeName.toGap atSpace (h.name.blankless_head _)
      (length_pos_iff.mpr h.beforeName.nonempty) ?_
    refine exec_identifier h.name atName (h.beforeParen.wordless_head (by rintro c ⟨⟩; decide)) ?_
    refine exec_gap h.beforeParen atGap (by rintro c ⟨⟩; decide) (Nat.zero_le _) ?_
    refine exec_mark (c := '(') rfl atParen ?_
    refine exec_few_of_segment atArgs (fun _ _ => rfl) ?_ ?_
    · exact fun i inside => exec_mark_of_absent (c := ')') rfl (by decide) h.unclosed atArgs inside rfl
    refine exec_mark (c := ')') rfl atClose ?_
    refine exec_gap h.beforeReturn atBlanks (back.blankless_head _) (Nat.zero_le _) ?_
    refine exec_keyword h.word (by decide) atReturn ?_
    refine exec_few_of_segment atRet (fun _ _ => rfl) ?_ ?_
    · -- an earlier end would be a word that begins with `is`
      intro i inside
      rw [eq_none_iff_forall_not_mem]
      intro r success
      obtain ⟨t', reached, -⟩ := exec_reaches (edge ++ .capture 5 (some "term") (lit "is")) _ _ _ _ success
      refine not_reaches_is free whole (fun _ d closed => ?_) (i := (h.write extra).length - (h.ret ++ extra).length + i)
        (by omega) ?_ reached
      · rw [FunctionHead.write, ← nil_append (h.ret ++ extra), h.upToReturn_append, getLast?_append, ends,
          some_or] at closed
        exact some.inj closed ▸ other
      · dsimp only
        omega
    rw [edge, exec_anchor_of_holds]
    · exact exec_keyword word (by decide) atIs rfl
    · have head := head?_of_textFrom atIs
      rw [show word.chars = c :: cs from letters] at head
      refine (wordEdge_before_iff head (is.wordy c (by simp [letters]))).mpr fun d before _ => ?_
      rw [(getElem?_last_of_textFrom atRet ends).2] at before
      exact some.inj before ▸ other
  have inside := lt_size_of_textFrom parts (by simp)
  refine ⟨_, matchAt_of_exec rfl (Nat.le_of_lt inside) run, textFrom_append atIs, ?_, ?_⟩
  · rw [Match.named, Match.named?_of_span (show _ = some (1 + 1) from rfl) rfl rfl atName, getD_some]
  · rw [Match.named, Match.named?_of_span (show _ = some (2 + 1) from rfl) rfl rfl atArgs, getD_some]

theorem matchesFrom_silent (silent : Silent cs) (here : textFrom text pos = cs ++ rest) (fuel : Nat) :
    functionHeader.matchesFrom text fuel pos false = functionHeader.matchesFrom text fuel (pos + cs.length) false :=
  matchesFrom_skip rfl fun _ inside => matchAt_silent silent here inside

theorem matchesFrom_endless (free : occurs opensIs false cs = false) (here : textFrom text pos = cs)
    (fuel : Nat) : functionHeader.matchesFrom text fuel pos false = [] := by
  refine matchesFrom_eq_nil rfl fun i _ => ?_
  rw [eq_none_iff_forall_not_mem]
  intro m found
  obtain ⟨_, whole, -⟩ := matchAt_reaches found
  obtain ⟨_, ⟨u, before, edged⟩, term⟩ := whole
  have reached : Reaches text (edge ++ .capture 5 (some "term") (lit "is")) headerOptions u _ := ⟨_, edged, term⟩
  have later := before.pos_le
  have inside : u.pos - pos < cs.length := by
    obtain ⟨_, ⟨-, rfl⟩, _, letters, -⟩ := reached
    obtain ⟨w, reads, there, -⟩ := reaches_word letters
    have size := lt_size_of_textFrom there (by simp [ne_nil_of_length_eq_add_one reads.length_eq])
    rw [← here, textFrom_length]
    dsimp only at later
    omega
  refine not_reaches_is free (here.trans (append_nil cs).symm) (fun more => absurd rfl more) inside ?_ reached
  dsimp only at later
  omega

end

/-- A match gives the name and the arguments of a header. -/
def Gives (m : Match) (h : FunctionHead) : Prop :=
  m.named "name" = ofList h.name.chars ∧ m.named "args" = ofList h.args

theorem matchesFrom_heads (text : Array Char) (items : List FunctionItem) (plain : Plain items) :
    (∀ pos fuel, textFrom text pos = itemsText items → items.length < fuel →
      Forall₂ Gives (functionHeader.matchesFrom text fuel pos false) (readHeads none items)) ∧
    ∀ (h : FunctionHead) (mid : List Char) (pos fuel : Nat),
      textFrom text pos = h.write (';' :: (mid ++ itemsText items)) →
      occurs opensIs false (h.write (';' :: (mid ++ upToIs items))) = false → items.length < fuel →
      Forall₂ Gives (functionHeader.matchesFrom text fuel pos false) (readHeads (some h) items) := by
  induction items with
  | nil =>
    constructor
    · intro pos fuel here _
      rw [matchesFrom_endless rfl here]
      exact .nil
    · intro h mid pos fuel here free _
      rw [matchesFrom_endless free here]
      exact .nil
  | cons item items ih =>
    cases item with
    | prototype h' after =>
      obtain ⟨free', silent, plain⟩ := plain
      obtain ⟨-, waiting⟩ := ih plain
      constructor
      · intro pos fuel here enough
        exact waiting h' after pos fuel here free' (Nat.lt_of_succ_lt enough)
      · intro h mid pos fuel here free enough
        have join (rest : List Char) : mid ++ h'.write (';' :: (after ++ rest)) =
            mid ++ h'.write (';' :: after) ++ rest := by
          rw [← cons_append, h'.write_append, append_assoc]
        rw [itemsText, join] at here
        rw [upToIs, join] at free
        exact waiting h _ pos fuel here free (Nat.lt_of_succ_lt enough)
    | body h' word after =>
      obtain ⟨free', ⟨c, ends, other⟩, silent, plain⟩ := plain
      obtain ⟨next, -⟩ := ih plain
      -- what stands behind the word `is` is read as if nothing stood before it
      have step {h : FunctionHead} {extra : List Char} {pos fuel : Nat}
          (here : textFrom text pos = h.write (extra ++ (word.chars ++ (after ++ itemsText items))))
          (free : occurs opensIs false (h.write extra) = false) (last : (h.ret ++ extra).getLast? = some c)
          (enough : items.length + 1 < fuel) :
          Forall₂ Gives (functionHeader.matchesFrom text fuel pos false) (h :: readHeads none items) := by
        obtain ⟨m, found, behind, gives⟩ := matchAt_head h word here free ⟨c, last, other⟩
        obtain ⟨fuel, rfl⟩ := Nat.exists_eq_add_of_lt (Nat.lt_of_le_of_lt (Nat.zero_le _) enough)
        rw [Nat.zero_add, matchesFrom_of_matchAt rfl found (stop_gt_of_matchAt (by decide) found),
          matchesFrom_silent silent behind]
        exact .cons gives (next _ _ (textFrom_append behind) (by omega))
      constructor
      · intro pos fuel here enough
        exact step (show _ = h'.write ([] ++ _) from here) free' (by rw [append_nil]; exact ends) enough
      · intro h mid pos fuel here free enough
        have join (rest : List Char) : ';' :: (mid ++ h'.write rest) = ';' :: (mid ++ h'.write []) ++ rest := by
          rw [← nil_append rest, h'.write_append, nil_append, cons_append, append_assoc]
        rw [itemsText, join] at here
        refine step here free ?_ enough
        rw [h'.write_nil]
        simp [getLast?_append, getLast?_cons, ends]

/-- The first of the headers with each name, if the names seen before do not count. -/
def firstHeads (seen : List String) : List FunctionHead → List FunctionHead
  | [] => []
  | h :: rest =>
    if ofList h.name.chars ∈ seen then firstHeads seen rest
    else h :: firstHeads (seen ++ [ofList h.name.chars]) rest

/-- A function is listed with the name and the arguments of a header. -/
def ListedFor (s : Subprogram) (h : FunctionHead) : Prop :=
  s.name = ofList h.name.chars ∧ allOfForm blockOptions argumentForm (ofList h.args) = .ok s.arguments

theorem addSubprograms_gives {ms : List Match} {heads : List FunctionHead} (given : Forall₂ Gives ms heads)
    (known : List Subprogram) :
    ∃ listed, addSubprograms "" known ms = .ok (known ++ listed) ∧
      Forall₂ ListedFor listed (firstHeads (known.map (·.name)) heads) := by
  induction given generalizing known with
  | nil => exact ⟨[], by rw [append_nil]; rfl, .nil⟩
  | @cons m h ms heads gives _ ih =>
    have seen : known.any (·.name == ofList h.name.chars) = true ↔
        ofList h.name.chars ∈ known.map (·.name) := by simp
    simp only [addSubprograms, firstHeads, gives.1, gives.2, seen, String.append_empty]
    split
    · exact ih known
    · obtain ⟨arguments, read⟩ : ∃ ds, allOfForm blockOptions argumentForm (ofList h.args) = .ok ds :=
        typedForm_total rfl rfl _
      obtain ⟨listed, added, each⟩ := ih (known ++ [⟨ofList h.name.chars, arguments⟩])
      rw [append_assoc] at added
      rw [map_append] at each
      rw [read]
      exact ⟨_, added, .cons ⟨rfl, read⟩ each⟩

def unaryHead (name : Identifier) (ret : List Char) : FunctionHead where
  keyword := ⟨"function".toList, by decide⟩
  beforeName := oneSpace
  name := name
  beforeParen := noGap
  args := "a : t".toList
  beforeReturn := oneSpace.toGap
  word := ⟨"return".toList, by decide⟩
  ret := ret
  unclosed := by decide

def prototypeFirst : String :=
  "function f(a : t) return t;\nfunction g(a : t) return t is begin end g;"

end VhdlWorkbench.Design

import VhdlWorkbench.Declaration.Read
import VhdlWorkbench.Source.Comment

/-!
Trimming, cutting and collapsing texts, and texts in which nothing is taken for a comment.
-/

namespace VhdlWorkbench.Text

open List String Text

variable {cs tail : List Char}

theorem dropWhile_isBlank_append {g cs : List Char} (blank : ∀ c ∈ g, isBlank c = true)
    (opens : ∀ c, cs.head? = some c → isBlank c = false) : (g ++ cs).dropWhile isBlank = cs := by
  rw [dropWhile_append_of_pos blank]
  cases cs with
  | nil => rfl
  | cons c cs => simp [opens c rfl]

theorem trim_blanks {lead : List Char} (before : ∀ c ∈ lead, isBlank c = true) (nonempty : cs ≠ [])
    (opens : ∀ c, cs.head? = some c → isBlank c = false)
    (closes : ∀ c, cs.getLast? = some c → isBlank c = false)
    (blank : ∀ c ∈ tail, isBlank c = true) :
    trim (ofList (lead ++ (cs ++ tail))) = ofList cs := by
  have left : dropBlanks (lead ++ (cs ++ tail)) = cs ++ tail := by
    refine dropWhile_isBlank_append before ?_
    obtain ⟨d, rest, rfl⟩ := exists_cons_of_ne_nil nonempty
    exact opens
  have right : dropBlanksRight (cs ++ tail) = cs := by
    unfold dropBlanksRight
    rw [reverse_append, dropWhile_isBlank_append, reverse_reverse]
    · simpa using blank
    · simpa using closes
  rw [trim, toList_ofList, left, right]

theorem trim_append_blanks (nonempty : cs ≠ []) (opens : ∀ c, cs.head? = some c → isBlank c = false)
    (closes : ∀ c, cs.getLast? = some c → isBlank c = false)
    (blank : ∀ c ∈ tail, isBlank c = true) :
    trim (ofList (cs ++ tail)) = ofList cs := by
  have trimmed := trim_blanks (forall_mem_nil fun c => isBlank c = true) nonempty opens closes blank
  rwa [nil_append] at trimmed

theorem trim_lead {lead : List Char} (blank : ∀ c ∈ lead, isBlank c = true) (cs : List Char) :
    trim (ofList (lead ++ cs)) = trim (ofList cs) := by
  have dropped : dropBlanks (lead ++ cs) = dropBlanks cs := dropWhile_append_of_pos blank
  rw [trim, trim, toList_ofList, toList_ofList, dropped]

theorem splitFrom_single {sep : Char} (piece cs : List Char) (single : sep ∉ cs) :
    splitFrom sep piece cs = [ofList (piece.reverse ++ cs)] := by
  induction cs generalizing piece with
  | nil => simp [splitFrom]
  | cons c cs ih =>
    have other : c ≠ sep := fun same => single (same ▸ mem_cons_self)
    rw [splitFrom, if_neg (by simpa using other),
      ih _ fun member => single (mem_cons_of_mem c member)]
    simp

theorem splitFrom_cut {sep : Char} (piece : List Char) {cs : List Char} (single : sep ∉ cs)
    (rest : List Char) :
    splitFrom sep piece (cs ++ sep :: rest) = ofList (piece.reverse ++ cs) :: splitFrom sep [] rest := by
  induction cs generalizing piece with
  | nil => simp [splitFrom]
  | cons c cs ih =>
    have other : c ≠ sep := fun same => single (same ▸ mem_cons_self)
    rw [cons_append, splitFrom, if_neg (by simpa using other),
      ih _ fun member => single (mem_cons_of_mem c member)]
    simp

theorem replaceChar_space (cs : List Char) :
    replaceChar (ofList cs) ' ' "" = ofList (cs.filter (· != ' ')) := by
  have dropped (cs : List Char) : (cs.flatMap fun c => if (c == ' ') = true then "".toList else [c]) =
      cs.filter (· != ' ') := by
    induction cs with
    | nil => rfl
    | cons c cs ih =>
      rw [flatMap_cons, ih, filter_cons]
      by_cases space : c = ' ' <;> simp [space]
  rw [replaceChar, dropped, toList_ofList]

theorem findFrom_first {part front tail : List Char} (nonempty : part ≠ [])
    (early : ∀ j < front.length, ¬part <+: (front ++ (part ++ tail)).drop j) (n : Nat) :
    findFrom part n (front ++ (part ++ tail)) = some (n + front.length) := by
  induction front generalizing n with
  | nil =>
    obtain ⟨c, rest, rfl⟩ := exists_cons_of_ne_nil nonempty
    simp only [nil_append, cons_append, findFrom, length_nil, Nat.add_zero]
    rw [if_pos]
    exact isPrefixOf_iff_prefix.mpr (prefix_append (c :: rest) tail)
  | cons c front ih =>
    have here := early 0 (by simp)
    rw [drop_zero, cons_append, ← isPrefixOf_iff_prefix] at here
    rw [cons_append, findFrom, if_neg here, ih, length_cons, Nat.add_right_comm, Nat.add_assoc]
    intro j inside
    simpa using early (j + 1) (by simpa using inside)

theorem findFrom_prefix {part cs : List Char} {n i : Nat} (found : findFrom part n cs = some i) :
    ∃ j, i = n + j ∧ part <+: cs.drop j := by
  induction cs generalizing n with
  | nil =>
    unfold findFrom at found
    split at found
    · next empty =>
      obtain rfl := Option.some.inj found
      exact ⟨0, rfl, by simp [isEmpty_iff.mp empty]⟩
    · simp at found
  | cons c cs ih =>
    unfold findFrom at found
    split at found
    · next here =>
      obtain rfl := Option.some.inj found
      exact ⟨0, rfl, isPrefixOf_iff_prefix.mp here⟩
    · obtain ⟨j, rfl, there⟩ := ih found
      exact ⟨j + 1, by omega, there⟩

theorem replaceFirst_at {old front tail : List Char} (nonempty : old ≠ [])
    (early : ∀ j < front.length, ¬old <+: (front ++ (old ++ tail)).drop j) (new : String) :
    replaceFirst (ofList (front ++ (old ++ tail))) (ofList old) new =
      ofList (front ++ (new.toList ++ tail)) := by
  have found : find? (ofList (front ++ (old ++ tail))) (ofList old) = some front.length := by
    simpa [find?] using findFrom_first nonempty early 0
  rw [replaceFirst, found]
  simp [drop_append]

theorem replaceFirst_front {cs : List Char} (nonempty : cs ≠ []) (tail : List Char) (new : String) :
    replaceFirst (ofList (cs ++ tail)) (ofList cs) new =
      ofList (new.toList ++ tail) := by
  have first : ∀ j < ([] : List Char).length, ¬cs <+: ([] ++ (cs ++ tail)).drop j := by simp
  exact replaceFirst_at nonempty first new

theorem replaceFirst_self (s old : String) : replaceFirst s old old = s := by
  unfold replaceFirst
  cases found : find? s old with
  | none => rfl
  | some n =>
    obtain ⟨j, rfl, tail, there⟩ := findFrom_prefix found
    have behind : s.toList.drop (0 + j + old.length) = tail := by
      rw [Nat.zero_add, ← drop_drop, ← there, ← length_toList, drop_left]
    have whole : s.toList.take (0 + j) ++ (old.toList ++ tail) = s.toList := by
      rw [Nat.zero_add, there, take_append_drop]
    simp only [behind, List.append_assoc, whole, ofList_toList]

end VhdlWorkbench.Text

namespace VhdlWorkbench.Declaration

open List Text

variable {cs tail : List Char}

@[simp] theorem collapseFrom_nil (blank : Bool) : collapseFrom blank [] = [] :=
  rfl

theorem collapseFrom_cons (blank : Bool) (c : Char) (cs : List Char) : collapseFrom blank (c :: cs) =
    if isBlank c then if blank then collapseFrom true cs else ' ' :: collapseFrom true cs
    else c :: collapseFrom false cs :=
  rfl

theorem collapseFrom_append {c : Char} (mark : isBlank c = false) (blank : Bool)
    (cs tail : List Char) :
    collapseFrom blank (cs ++ c :: tail) = collapseFrom blank cs ++ c :: collapseFrom false tail := by
  induction cs generalizing blank with
  | nil => simp [collapseFrom_cons, mark]
  | cons d cs ih =>
    simp only [cons_append, collapseFrom_cons]
    split
    · split
      · exact ih true
      · rw [ih true, cons_append]
    · rw [ih false, cons_append]

/-- Where a solid character follows, the two parts of a text are collapsed on their own. -/
theorem collapseFrom_split (stops : ∀ c, tail.head? = some c → isBlank c = false) (blank : Bool)
    (cs : List Char) : collapseFrom blank (cs ++ tail) = collapseFrom blank cs ++ collapseFrom false tail := by
  cases tail with
  | nil => simp
  | cons c tail =>
    have solid := stops c rfl
    rw [collapseFrom_append solid, collapseFrom_cons, if_neg (by simp [solid])]

theorem collapseFrom_word (blank : Bool) {word : List Char} (nonempty : word ≠ [])
    (solid : ∀ c ∈ word, isBlank c = false) (tail : List Char) :
    collapseFrom blank (word ++ tail) = word ++ collapseFrom false tail := by
  induction word generalizing blank with
  | nil => exact absurd rfl nonempty
  | cons c word ih =>
    rw [cons_append, collapseFrom_cons, if_neg (by simp [solid c mem_cons_self])]
    cases word with
    | nil => rfl
    | cons d word =>
      rw [ih false (cons_ne_nil d word) fun e member => solid e (mem_cons_of_mem c member)]
      rfl

theorem collapseFrom_blank (blank : ∀ c ∈ tail, isBlank c = true) (b : Bool) :
    ∀ c ∈ collapseFrom b tail, isBlank c = true := by
  induction tail generalizing b with
  | nil => simp
  | cons d tail ih =>
    have rest := ih fun c member => blank c (mem_cons_of_mem d member)
    simp only [collapseFrom_cons, blank d mem_cons_self, ↓reduceIte]
    split
    · exact rest true
    · intro c member
      rcases mem_cons.mp member with rfl | later
      · decide
      · exact rest true c later

theorem mem_collapseFrom {blank : Bool} {c : Char} (member : c ∈ collapseFrom blank cs) :
    c = ' ' ∨ (isBlank c = false ∧ c ∈ cs) := by
  induction cs generalizing blank with
  | nil => simp at member
  | cons d cs ih =>
    have later {b : Bool} (behind : c ∈ collapseFrom b cs) : c = ' ' ∨ (isBlank c = false ∧ c ∈ d :: cs) := by
      rcases ih behind with space | ⟨solid, inside⟩
      · exact Or.inl space
      · exact Or.inr ⟨solid, mem_cons_of_mem d inside⟩
    rw [collapseFrom_cons] at member
    split at member
    · split at member
      · exact later member
      · rcases mem_cons.mp member with rfl | behind
        · exact Or.inl rfl
        · exact later behind
    · next solid =>
      rcases mem_cons.mp member with rfl | behind
      · exact Or.inr ⟨by simpa using solid, mem_cons_self⟩
      · exact later behind

theorem count_collapseFrom {c : Char} (solid : isBlank c = false) (blank : Bool) (cs : List Char) :
    (collapseFrom blank cs).count c = cs.count c := by
  induction cs generalizing blank with
  | nil => rfl
  | cons d cs ih =>
    rw [collapseFrom_cons]
    split
    · next space =>
      have other : d ≠ c := by
        rintro rfl
        simp [space] at solid
      have other' : ' ' ≠ c := by
        rintro rfl
        exact absurd solid (by decide)
      rw [count_cons_of_ne other]
      split
      · exact ih true
      · rw [count_cons_of_ne other', ih true]
    · rw [count_cons, count_cons, ih false]

/-- Blanks behind a text do not change what is left of it once it is collapsed and trimmed. -/
theorem trim_collapse_append (nonempty : cs ≠ [])
    (opens : ∀ c, cs.head? = some c → isBlank c = false)
    (closes : ∀ c, cs.getLast? = some c → isBlank c = false)
    (blank : ∀ c ∈ tail, isBlank c = true) :
    trim (collapse (String.ofList (cs ++ tail))) = collapse (String.ofList cs) := by
  have mark := closes _ (getLast?_eq_some_getLast nonempty)
  have split (rest : List Char) : collapseFrom false (cs ++ rest) =
      collapseFrom false cs.dropLast ++ cs.getLast nonempty :: collapseFrom false rest := by
    rw [← collapseFrom_append mark, append_cons, dropLast_concat_getLast]
  have whole : collapseFrom false cs =
      collapseFrom false cs.dropLast ++ [cs.getLast nonempty] := by
    simpa using split []
  have parted : collapseFrom false (cs ++ tail) = collapseFrom false cs ++ collapseFrom false tail := by
    rw [split, whole, append_assoc, singleton_append]
  simp only [collapse, String.toList_ofList, parted]
  apply trim_append_blanks
  · simp [whole]
  · obtain ⟨d, rest, rfl⟩ := exists_cons_of_ne_nil nonempty
    have first := opens d rfl
    simp [collapseFrom_cons, first]
  · simpa [whole] using mark
  · exact collapseFrom_blank blank false

end VhdlWorkbench.Declaration

namespace VhdlWorkbench.Source

open List Text

/-- The text has no comment and no literal. -/
def commentFree : List Char → Bool
  | [] => true
  | '-' :: '-' :: _ => false
  | '/' :: '*' :: _ => false
  | '"' :: _ => false
  | _ :: rest => commentFree rest

/-- A character that begins no comment and no literal. -/
def isPlain (c : Char) : Bool :=
  c != '-' && c != '/' && c != '"'

theorem isPlain_of_isBlank {c : Char} (blank : isBlank c = true) : isPlain c = true := by
  simp only [isPlain, Bool.and_eq_true, bne_iff_ne, ne_eq]
  refine ⟨⟨?_, ?_⟩, ?_⟩ <;> rintro rfl <;> exact absurd blank (by decide)

theorem isPlain_of_isWord {c : Char} (wordy : isWord c = true) : isPlain c = true := by
  simp only [isPlain, Bool.and_eq_true, bne_iff_ne, ne_eq]
  refine ⟨⟨?_, ?_⟩, ?_⟩ <;> rintro rfl <;> exact absurd wordy (by decide)

theorem blankComments_cons {c : Char} {rest : List Char}
    (dash : c = '-' → rest.head? ≠ some '-') (slash : c = '/' → rest.head? ≠ some '*')
    (quote : c ≠ '"') : blankComments (c :: rest) = c :: blankComments rest := by
  rw [blankComments]
  · rintro _ rfl rfl
    exact dash rfl rfl
  · rintro _ rfl rfl
    exact slash rfl rfl
  · exact quote

theorem blankComments_plain {cs : List Char} (plain : ∀ c ∈ cs, isPlain c = true) (rest : List Char) :
    blankComments (cs ++ rest) = cs ++ blankComments rest := by
  induction cs with
  | nil => rfl
  | cons c cs ih =>
    have first := plain c mem_cons_self
    simp only [isPlain, Bool.and_eq_true, bne_iff_ne, ne_eq] at first
    rw [cons_append, blankComments_cons (fun dash => absurd dash first.1.1)
      (fun slash => absurd slash first.1.2) first.2, ih fun d member => plain d (mem_cons_of_mem c member),
      cons_append]

/-- A stretch without comments is kept if what follows does not complete the mark of a comment. -/
theorem blankComments_commentFree {cs rest : List Char} (free : commentFree cs = true)
    (stops : ∀ c, rest.head? = some c → (cs.getLast? = some '-' → c ≠ '-') ∧ c ≠ '*') :
    blankComments (cs ++ rest) = cs ++ blankComments rest := by
  fun_induction commentFree cs with
  | case1 => rfl
  | case2 => exact absurd free (by decide)
  | case3 => exact absurd free (by decide)
  | case4 => exact absurd free (by decide)
  | case5 c cs dash slash quote ih =>
    have later : ∀ d, rest.head? = some d → (cs.getLast? = some '-' → d ≠ '-') ∧ d ≠ '*' := by
      refine fun d head => ⟨fun last => (stops d head).1 ?_, (stops d head).2⟩
      rw [getLast?_cons, last, Option.getD_some]
    rw [cons_append, blankComments_cons, ih free later, cons_append]
    · rintro rfl head
      cases cs with
      | nil => exact (stops _ head).1 rfl rfl
      | cons d cs =>
        obtain rfl : d = '-' := by simpa using head
        exact dash cs rfl rfl
    · rintro rfl head
      cases cs with
      | nil => exact (stops _ head).2 rfl
      | cons d cs =>
        obtain rfl : d = '*' := by simpa using head
        exact slash cs rfl rfl
    · exact quote

theorem withoutComments_plain {cs : List Char} (plain : ∀ c ∈ cs, isPlain c = true) :
    withoutComments (String.ofList cs) = String.ofList cs := by
  have kept := blankComments_plain plain []
  rw [blankComments, append_nil] at kept
  rw [withoutComments, String.toList_ofList, kept]

end VhdlWorkbench.Source

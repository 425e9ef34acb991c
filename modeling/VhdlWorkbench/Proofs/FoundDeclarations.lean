import Mathlib.Data.List.Chain
import VhdlWorkbench.Proofs.Captures
import VhdlWorkbench.Proofs.LookupPlaces

/-!
What a lookup gives: nothing, or a declaration with a text and a type.
-/

namespace VhdlWorkbench.Pattern

open List String Regex Bool

/-- Every way through the pattern takes a character; if `solid` is set, one that is not blank. -/
def Node.takes (solid : Bool) : Node → Bool
  | .one (.char p) => !(solid && Text.isBlank p)
  | .run _ lo _ _ => !solid && 0 < lo
  | .seq a b => a.takes solid || b.takes solid
  | .capture _ _ body | .group body => body.takes solid
  | _ => false

/-- No step of the pattern takes a blank. -/
def Node.blankless : Node → Bool
  | .one (.char p) => !Text.isBlank p
  | .run (.category false .word) _ _ _ => true
  | .seq a b | .alt a b => a.blankless && b.blankless
  | _ => false

variable {text : Array Char} {o : Options} {t t' : Thread} {p : Node}

theorem mem_segment {start stop i : Nat} {c : Char} (low : start ≤ i) (high : i < stop) (there : text[i]? = some c) :
    c ∈ segment text start stop := by
  obtain ⟨n, rfl⟩ := Nat.exists_eq_add_of_le low
  rw [getElem?_textFrom] at there
  rw [segment_eq_take]
  have short : n < stop - start := by omega
  exact mem_of_getElem? (by rw [getElem?_take_of_lt short, there])

theorem isBlank_of_accepted {p c : Char} (accepted : charAccepts o p c = true)
    (solid : Text.isBlank p = false) : Text.isBlank c = false := by
  rw [Bool.eq_false_iff]
  intro blank
  obtain rfl := eq_of_charAccepts (Or.inl blank) accepted
  rw [solid] at blank
  exact Bool.noConfusion blank

theorem Reaches.takes {solid : Bool} (reached : Reaches text p o t t') (takes : p.takes solid = true) :
    ∃ c ∈ segment text t.pos t'.pos, solid = true → Text.isBlank c = false := by
  suffices place : ∃ i c, t.pos ≤ i ∧ i < t'.pos ∧ text[i]? = some c ∧ (solid = true → Text.isBlank c = false) by
    obtain ⟨i, c, low, high, there, kind⟩ := place
    exact ⟨c, mem_segment low high there, kind⟩
  induction p generalizing t t' with
  | one s =>
    cases s with
    | char q =>
      obtain ⟨c, there, accepted, rfl⟩ := reached
      refine ⟨t.pos, c, Nat.le_refl _, Nat.lt_succ_self _, there, fun set => ?_⟩
      exact isBlank_of_accepted accepted (by simpa [Node.takes, set] using takes)
    | _ => simp [Node.takes] at takes
  | run s lo hi greed =>
    simp only [Node.takes, and_eq_true, not_eq_true', decide_eq_true_eq] at takes
    obtain ⟨n, enough, -, taken, rfl⟩ := reached
    obtain ⟨c, there, -⟩ := taken 0 (by omega)
    exact ⟨t.pos, c, Nat.le_refl _, by dsimp only; omega, there, by simp [takes.1]⟩
  | seq a b iha ihb =>
    obtain ⟨m, first, second⟩ := reached
    have low := first.pos_le
    have high := second.pos_le
    rcases or_eq_true_iff.mp takes with left | right
    · obtain ⟨i, c, after, before, found⟩ := iha first left
      exact ⟨i, c, after, by omega, found⟩
    · obtain ⟨i, c, after, before, found⟩ := ihb second right
      exact ⟨i, c, by omega, before, found⟩
  | capture slot name body ih =>
    obtain ⟨m, inner, rfl⟩ := reached
    have inside := ih inner takes
    exact inside
  | group body ih => exact ih reached takes
  | _ => simp [Node.takes] at takes

theorem Reaches.blankless (reached : Reaches text p o t t')
    (blankless : p.blankless = true) : ∀ c ∈ segment text t.pos t'.pos, Text.isBlank c = false := by
  induction p generalizing t t' with
  | one s =>
    cases s with
    | char q =>
      obtain ⟨c, there, accepted, rfl⟩ := reached
      have solid := isBlank_of_accepted accepted (by simpa [Node.blankless] using blankless)
      have here : segment text t.pos (t.pos + [c].length) = [c] := segment_of_textFrom (textFrom_of_getElem? there)
      show ∀ d ∈ segment text t.pos (t.pos + [c].length), _
      rw [here]
      simpa using solid
    | _ => simp [Node.blankless] at blankless
  | run s lo hi greed =>
    obtain rfl : s = .category false .word := by
      revert blankless
      unfold Node.blankless
      split <;> simp_all
    obtain ⟨seg, here, taken, -, -, rfl⟩ := reaches_run reached
    rw [segment_of_textFrom here]
    intro c member
    have word := taken c member
    simp only [Single.accepts, Category.accepts, bne_false, and_eq_true] at word
    exact Text.isBlank_of_isWord word.2
  | seq a b iha ihb =>
    obtain ⟨m, first, second⟩ := reached
    obtain ⟨left, right⟩ := and_eq_true_iff.mp blankless
    rw [segment_split first.pos_le second.pos_le]
    exact forall_mem_append.mpr ⟨iha first left, ihb second right⟩
  | alt a b iha ihb =>
    obtain ⟨left, right⟩ := and_eq_true_iff.mp blankless
    exact reached.elim (fun first => iha first left) fun second => ihb second right
  | _ => simp [Node.blankless] at blankless

end VhdlWorkbench.Pattern

namespace VhdlWorkbench.Declaration

open Pattern Pattern.Node Design List String Option Text Regex Bool

variable {c : Char}

/-- The only blanks are spaces, and no two of them stand together. -/
def SingleSpaced (cs : List Char) : Prop :=
  (∀ c ∈ cs, isBlank c = true → c = ' ') ∧ cs.IsChain fun a b => ¬(a = ' ' ∧ b = ' ')

/-- What a declaration that was found for a name is: the name, a text and a type, with single spaces only. -/
structure FoundFor (name : String) (d : Declaration) : Prop where
  name : d.name = name
  text : ∃ text, d.text = some text ∧ text ≠ "" ∧ SingleSpaced text.toList
  type : ∃ type, d.type = some type ∧ SingleSpaced type.toList

theorem singleSpaced_word {cs : List Char} (solid : ∀ c ∈ cs, isBlank c = false) : SingleSpaced cs := by
  have spaceless : ∀ c ∈ cs, c ≠ ' ' := by
    rintro c member rfl
    exact absurd (solid ' ' member) (by decide)
  refine ⟨fun c member blank => absurd (solid c member) (by simp [blank]), Pairwise.isChain ?_⟩
  exact pairwise_of_forall_mem_list fun a first b _ both => spaceless a first both.1

theorem SingleSpaced.append {a b : List Char} (first : SingleSpaced a) (second : SingleSpaced b)
    (apart : a.getLast? ≠ some ' ' ∨ b.head? ≠ some ' ') : SingleSpaced (a ++ b) := by
  refine ⟨fun c member => (mem_append.mp member).elim (first.1 c) (second.1 c),
    isChain_append.mpr ⟨first.2, second.2, ?_⟩⟩
  rintro c last d head ⟨rfl, rfl⟩
  exact apart.elim (fun other => other last) fun other => other head

theorem singleSpaced_collapseFrom (cs : List Char) (blank : Bool) :
    SingleSpaced (collapseFrom blank cs) ∧ (blank = true → (collapseFrom blank cs).head? ≠ some ' ') := by
  induction cs generalizing blank with
  | nil => exact ⟨⟨by simp [collapseFrom], isChain_nil⟩, by simp [collapseFrom]⟩
  | cons c cs ih =>
    rw [collapseFrom]
    split
    · split
      · next set => exact ⟨(ih true).1, fun _ => (ih true).2 rfl⟩
      · next unset =>
        refine ⟨?_, fun set => absurd set unset⟩
        have single : SingleSpaced [' '] := ⟨by simp, isChain_singleton _⟩
        exact single.append (ih true).1 (Or.inr ((ih true).2 rfl))
    · next solid =>
      have other : c ≠ ' ' := by
        rintro rfl
        exact solid (by decide)
      refine ⟨?_, by simp [other]⟩
      exact (singleSpaced_word (show ∀ d ∈ [c], isBlank d = false by simpa using solid)).append (ih false).1
        (Or.inl (by simp [other]))

theorem singleSpaced_collapse (s : String) : SingleSpaced (collapse s).toList := by
  rw [collapse, toList_ofList]
  exact (singleSpaced_collapseFrom _ _).1

theorem collapse_ne_empty {s : String} (member : c ∈ s.toList) (solid : isBlank c = false) :
    collapse s ≠ "" := by
  have kept (cs : List Char) (blank : Bool) (member : c ∈ cs) : c ∈ collapseFrom blank cs := by
    induction cs generalizing blank with
    | nil => exact absurd member not_mem_nil
    | cons d cs ih =>
      rw [collapseFrom]
      rcases mem_cons.mp member with rfl | later
      · simp [solid]
      · split
        · split
          · exact ih true later
          · exact mem_cons_of_mem _ (ih true later)
        · exact mem_cons_of_mem _ (ih false later)
  intro empty
  have there := kept s.toList false member
  rw [collapse, ofList_eq_empty_iff] at empty
  simp [empty] at there

theorem mem_trim {cs : List Char} (member : c ∈ cs) (solid : isBlank c = false) :
    c ∈ (Text.trim (ofList cs)).toList := by
  have kept {cs : List Char} (member : c ∈ cs) : c ∈ cs.dropWhile isBlank := by
    rw [← takeWhile_append_dropWhile (p := isBlank) (l := cs)] at member
    refine (mem_append.mp member).resolve_left fun taken => ?_
    rw [mem_takeWhile_imp taken] at solid
    exact Bool.noConfusion solid
  simp only [Text.trim, Text.dropBlanksRight, Text.dropBlanks, toList_ofList, mem_reverse]
  exact kept (mem_reverse.mpr (kept member))

variable {m : Match} (name : Identifier)

/-- A name with letters in place of a part of a text leaves something that is not blank. -/
theorem exists_solid {s : String} (listed : String) (member : c ∈ s.toList) (solid : isBlank c = false) :
    ∃ d ∈ (replaceFirst s listed (ofList name.chars)).toList, isBlank d = false := by
  unfold replaceFirst
  split
  · exact ⟨c, member, solid⟩
  · obtain ⟨d, letters, head⟩ := exists_cons_of_ne_nil name.nonempty
    exact ⟨d, by simp [head], name.solid d (by simp [head])⟩

theorem foundFor_addIdentifier {listed type : String} {d : Declaration}
    (member : c ∈ m.text.toList) (solid : isBlank c = false) :
    FoundFor (ofList name.chars) (addIdentifier m listed type (ofList name.chars) d) := by
  have visible : c ∈ (Text.trim m.text).toList := by
    have kept := mem_trim member solid
    rwa [ofList_toList] at kept
  obtain ⟨b, inside, dark⟩ := exists_solid name listed visible solid
  rw [addIdentifier, name.trim_chars]
  split
  · have port (rest : String) : 'p' ∈ ("port " ++ rest).toList := by simp
    split
    · refine ⟨rfl, ⟨_, rfl, collapse_ne_empty (c := 'p') ?_ (by decide), singleSpaced_collapse _⟩, _, rfl,
        singleSpaced_collapse _⟩
      rw [eraseLast, toList_ofList, mem_reverse, mem_erase_of_ne (by decide), mem_reverse]
      exact port _
    · exact ⟨rfl, ⟨_, rfl, collapse_ne_empty (port _) (by decide), singleSpaced_collapse _⟩, _, rfl,
        singleSpaced_collapse _⟩
  · exact ⟨rfl, ⟨_, rfl, collapse_ne_empty inside dark, singleSpaced_collapse _⟩, _, rfl, singleSpaced_collapse _⟩

/-- The tag of a match has letters and no blanks if its word has none. -/
theorem tagOf_solid (word : ∀ tag, m.named? "tag" = some tag → ∀ c ∈ tag.toList, isBlank c = false) :
    (tagOf m).toList ≠ [] ∧ ∀ c ∈ (tagOf m).toList, isBlank c = false := by
  unfold tagOf
  split
  · next tag found =>
    obtain ⟨given, nonempty⟩ := filter_eq_some_iff.mp found
    exact toLower_solid (by simpa using nonempty) (word tag given)
  · split <;> decide

/-- A match with a name, a type and something to see in it gives a declaration of the name. -/
theorem ofMatch_found {listed type : String} (named : m.named? "name" = some listed)
    (member : c ∈ m.text.toList) (solid : isBlank c = false)
    (word : ∀ tag, m.named? "tag" = some tag → ∀ c ∈ tag.toList, isBlank c = false)
    (typed : (shared (ofList name.chars) m).type = some type) :
    ∃ d, ofMatch (ofList name.chars) m = .ok [d] ∧ FoundFor (ofList name.chars) d := by
  have letters : SingleSpaced (ofList name.chars).toList := by
    rw [toList_ofList]
    exact singleSpaced_word name.solid
  have head : (ofList name.chars).toList.head? ≠ some ' ' := by
    rw [toList_ofList]
    exact fun space => absurd (name.solid ' ' (mem_of_head? space)) (by decide)
  have unit {kind : String} (same : Text.toLower type = kind) (ascii : ∀ p ∈ kind.toList, p.toNat < 128 ∧
      p.toNat ≠ 0 ∧ p.toNat ≠ 107) (lower : Lower kind) : SingleSpaced type.toList := by
    rw [← ofList_toList (s := type)] at same
    have spelled := spells_of_toLower ascii same
    exact singleSpaced_word fun c member => isBlank_of_isWord (spelled.wordy lower member)
  simp only [ofMatch, typed, map_some, getD_some, beq_iff_eq]
  split
  · next entity =>
    refine ⟨_, rfl, rfl, ⟨_, rfl, by simp, ?_⟩, type, rfl, unit entity (by decide) (by decide)⟩
    rw [toList_append]
    exact SingleSpaced.append ⟨by decide, by decide⟩ letters (Or.inr head)
  · split
    · next architecture =>
      obtain ⟨nonempty, tag⟩ := tagOf_solid word
      refine ⟨_, rfl, rfl, ⟨_, rfl, by simp, ?_⟩, type, rfl, unit architecture (by decide) (by decide)⟩
      have last : (tagOf m).toList.getLast? ≠ some ' ' := fun space =>
        absurd (tag ' ' (mem_of_getLast? space)) (by decide)
      have first : (tagOf m).toList.head? ≠ some ' ' := fun space =>
        absurd (tag ' ' (mem_of_head? space)) (by decide)
      have front : SingleSpaced ("architecture ".toList ++ (tagOf m).toList) :=
        SingleSpaced.append ⟨by decide, by decide⟩ (singleSpaced_word tag) (Or.inr first)
      simp only [toList_append]
      refine SingleSpaced.append (front.append ⟨by decide, by decide⟩ (Or.inl ?_)) letters (Or.inr head)
      rwa [getLast?_append_of_ne_nil _ nonempty]
    · have some : (ofList name.chars).isEmpty = false := by simpa using name.nonempty
      simp only [named, some, false_eq_true, ↓reduceIte, addIdentifiers, typed]
      exact ⟨_, rfl, foundFor_addIdentifier name member solid⟩

/-- The letters of the word `alias`, one of them not in a case of its own. -/
def MiswritesAlias (word : List Char) : Prop :=
  Reads "alias" word ∧ ¬Spells "alias" word

/-- What a match of the pattern is sure to have: something to see, a name, a word without blanks if it has a tag, and a
type or the word `alias`. -/
def readable (r : Regex) : Bool :=
  r.options.ignoreCase && !r.options.ascii && r.node.takes true && (r.part? "name").isSome &&
    ((r.names.lookup "tag").all fun slot => 0 < slot && (r.node.bodies slot).all blankless) &&
    ((r.part? "type").any (takes false) || r.part? "tag" == some (lit "alias"))

theorem readable_of_mem {name : String} {kinds : Int} {form : Options × Node} (listed : form ∈ formsOf name kinds) :
    readable (ofNode form.1 form.2) = true := by
  have all : (formsOf name 7).all (fun form => readable (ofNode form.1 form.2)) = true := rfl
  exact all_eq_true.mp all form (formsOf_subset name kinds listed)

section

variable {r : Regex} {text : String}

/-- What the first match of a form gives: a declaration of the name, or, if the word `alias` in it is not written in
letters of its own, a failure. -/
theorem ofMatch_readable (check : readable r = true) (found : r.search? text = some m) :
    (∃ d, ofMatch (ofList name.chars) m = .ok [d] ∧ FoundFor (ofList name.chars) d) ∨
      ofMatch (ofList name.chars) m = .error .wrongKind ∧
        ∃ word, MiswritesAlias word ∧ word <:+: text.toList := by
  simp only [readable, and_eq_true, or_eq_true, not_eq_true', beq_iff_eq] at check
  obtain ⟨⟨⟨⟨⟨fold, full⟩, solid⟩, nameable⟩, tags⟩, typed⟩ := check
  have folds : Folds r.options := { full, fold }
  obtain ⟨place, b, there⟩ := exists_matchAt_of_search found
  obtain ⟨t, reached, source⟩ := matchAt_reaches there
  obtain ⟨_, part⟩ := isSome_iff_exists.mp nameable
  obtain ⟨_, _, -, named⟩ := named_of_part there part
  have word (tag : String) (tagged : m.named? "tag" = some tag) : ∀ c ∈ tag.toList, isBlank c = false := by
    cases listed : r.names.lookup "tag" with
    | none =>
      subst source
      simp [Match.named?, listed] at tagged
    | some slot =>
      rw [listed] at tags
      obtain ⟨positive, solid⟩ := and_eq_true_iff.mp tags
      obtain ⟨body, member, _, u, u', passed, rfl⟩ := named_of_matchAt there listed (of_decide_eq_true positive) tagged
      rw [toList_ofList]
      exact passed.blankless (all_eq_true.mp solid body member)
  obtain ⟨c, member, dark⟩ := reached.takes solid
  have inside : c ∈ m.text.toList := by
    subst source
    rwa [Match.text, toList_ofList]
  have read {type : String} (typed : (shared (ofList name.chars) m).type = some type) :=
    ofMatch_found name named inside (dark rfl) word typed
  rcases typed with given | tag
  · obtain ⟨body, part, takes⟩ := (any_eq_true _ _).mp given
    obtain ⟨u, u', passed, typed⟩ := named_of_part there part
    obtain ⟨d, taken, -⟩ := passed.takes takes
    have letters : segment text.toList.toArray u.pos u'.pos ≠ [] := ne_nil_of_mem taken
    have type : (shared (ofList name.chars) m).type =
        some (ofList (segment text.toList.toArray u.pos u'.pos)) := by
      simp [shared, typed, nonempty?_ofList letters]
    exact Or.inl (read type)
  · obtain ⟨u, u', passed, tagged⟩ := named_of_part there tag
    obtain ⟨w, reads, here, rfl⟩ := reaches_word passed
    rw [segment_of_textFrom here] at tagged
    have nonempty : w ≠ [] := (reads.identifier (by decide) (by decide)).nonempty
    cases typed : (shared (ofList name.chars) m).type with
    | some type => exact Or.inl (read typed)
    | none =>
      have untyped : nonempty? (m.named? "type") = none := by
        by_contra some
        obtain ⟨type, given⟩ := ne_none_iff_exists'.mp some
        simp [shared, given] at typed
      have tag : tagOf m = Text.toLower (ofList w) := by
        simp only [tagOf, tagged, nonempty?_ofList nonempty]
      have other : ¬Spells "alias" w := by
        intro spelled
        have lower : tagOf m = "alias" := tag.trans (spelled.toLower_eq (by decide))
        simp [shared, untyped, lower] at typed
      refine Or.inr ⟨?_, w, ⟨reads, other⟩, ?_⟩
      · have letters : (ofList name.chars).isEmpty = false := by simpa using name.nonempty
        simp [ofMatch, typed, named, letters, addIdentifiers, Bind.bind, Except.bind]
      · have front : w <+: textFrom text.toList.toArray u.pos := ⟨_, here.symm⟩
        exact front.isInfix.trans (drop_suffix _ _).isInfix

theorem firstMatch?_built (text : String) {forms : List (Options × Node)}
    (built : ∀ form ∈ forms, build form.1 form.2 = .ok (ofNode form.1 form.2)) :
    (firstMatch? text forms = .ok none ∧ ∀ form ∈ forms, (ofNode form.1 form.2).search? text = none) ∨
      ∃ form ∈ forms, ∃ m, firstMatch? text forms = .ok (some m) ∧
        (ofNode form.1 form.2).search? text = some m := by
  induction forms with
  | nil => exact Or.inl ⟨rfl, forall_mem_nil _⟩
  | cons form forms ih =>
    rw [forall_mem_cons] at built
    simp only [firstMatch?, built.1, orFault, Except.mapError]
    cases found : (ofNode form.1 form.2).search? text with
    | some m => exact Or.inr ⟨form, mem_cons_self, m, rfl, found⟩
    | none =>
      rcases ih built.2 with ⟨none, silent⟩ | ⟨other, member, m, first, there⟩
      · exact Or.inl ⟨none, forall_mem_cons.mpr ⟨found, silent⟩⟩
      · exact Or.inr ⟨other, mem_cons_of_mem _ member, m, first, there⟩

end

/-- The three ways in which a lookup ends: no form matches, a form gives a declaration, or one fails over a word
`alias`. -/
theorem lookup_cases (source : String) (kinds : Int) :
    (lookup source (ofList name.chars) kinds = .ok (notFound (ofList name.chars)) ∧
        ∀ form ∈ formsOf (ofList name.chars) kinds,
          (ofNode form.1 form.2).search? (searched source) = none) ∨
      (∃ d, lookup source (ofList name.chars) kinds = .ok d ∧ FoundFor (ofList name.chars) d) ∨
      lookup source (ofList name.chars) kinds = .error .wrongKind ∧
        ∃ word, MiswritesAlias word ∧ word <:+: (searched source).toList := by
  have built : ∀ form ∈ formsOf (ofList name.chars) kinds, _ := fun _ listed => build_of_mem name listed
  rcases firstMatch?_built (searched source) built with ⟨none, silent⟩ | ⟨form, member, m, first, there⟩
  · exact Or.inl ⟨bind_eq_ok.mpr ⟨_, none, rfl⟩, silent⟩
  · rcases ofMatch_readable name (readable_of_mem member) there with ⟨d, read, found⟩ | ⟨fails, word⟩
    · exact Or.inr (Or.inl ⟨d, bind_eq_ok.mpr ⟨_, first, bind_eq_ok.mpr ⟨_, read, rfl⟩⟩, found⟩)
    · refine Or.inr (Or.inr ⟨?_, word⟩)
      show (firstMatch? (searched source) (formsOf (ofList name.chars) kinds) >>= _) = _
      rw [first]
      show (ofMatch (ofList name.chars) m >>= _) = _
      rw [fails]
      rfl

/-- The lookup of an identifier gives nothing, or a declaration of it with a text and a type in which every run of
blanks is one space; it fails only over a word `alias` with a letter that only case folding takes for its own. -/
theorem lookup_fails_only_over_alias {name : String} (named : isName name = true) (source : String) (kinds : Int) :
    (∃ d, lookup source name kinds = .ok d ∧ (d = notFound name ∨ FoundFor name d)) ∨
      lookup source name kinds = .error .wrongKind ∧
        ∃ word, MiswritesAlias word ∧ word <:+: (searched source).toList := by
  obtain ⟨identifier, rfl⟩ := exists_identifier named
  rcases lookup_cases identifier source kinds with ⟨none, -⟩ | ⟨d, read, found⟩ | fails
  · exact Or.inl ⟨_, none, Or.inl rfl⟩
  · exact Or.inl ⟨d, read, Or.inr found⟩
  · exact Or.inr fails

theorem lookup_fails_only_over_alias_signal :
    isName "x" = true ∧
      ∃ d, lookup "signal x :  bit;" "x" 4 = .ok d ∧ (d = notFound "x" ∨ FoundFor "x" d) := by
  have named : isName "x" = true := by decide
  have read : lookup "signal x :  bit;" "x" 4 ≠ .error .wrongKind := by decide +kernel
  exact ⟨named, (lookup_fails_only_over_alias named "signal x :  bit;" 4).resolve_right fun fails => read fails.1⟩

theorem foreign_alias_not_read : lookup "aliaſ x : is y;" "x" 4 = .error .wrongKind := by
  decide +kernel

end VhdlWorkbench.Declaration

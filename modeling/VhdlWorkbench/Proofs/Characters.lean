import Mathlib.Data.List.Forall2
import VhdlWorkbench.Declaration.Forms
import VhdlWorkbench.Layout.Row
import VhdlWorkbench.Text.Lowercase

/-!
Classes of characters under patterns that ignore case.
-/

namespace VhdlWorkbench.Text

open List Text

theorem ranges_apart : blankRanges.all (fun blank =>
      alphanumericRanges.all fun wordy => blank.2 < wordy.1 || wordy.2 < blank.1) = true := by
  decide +kernel

theorem blank_not_alphanumeric_range {n : Nat} (blank : inRanges blankRanges n = true) :
    inRanges alphanumericRanges n = false := by
  obtain ⟨r, hr, hlo, hhi⟩ := (inRanges_iff _ _).mp blank
  have apart := all_eq_true.mp ranges_apart r hr
  rw [Bool.eq_false_iff]
  intro wordy
  obtain ⟨s, hs, slo, shi⟩ := (inRanges_iff _ _).mp wordy
  have := all_eq_true.mp apart s hs
  simp only [Bool.or_eq_true, decide_eq_true_eq] at this
  omega

/-- What holds of the first 128 characters holds of every character among them. -/
theorem forall_ascii {P : Char → Prop} (all : ∀ n < 128, P (Char.ofNat n)) {c : Char} (ascii : c.toNat < 128) :
    P c := by
  have here := all c.toNat ascii
  rwa [Char.ofNat_toNat] at here

theorem isWord_of_isBlank {c : Char} (blank : isBlank c = true) : isWord c = false := by
  have underscore : c ≠ '_' := by
    rintro rfl
    exact absurd blank (by decide)
  have alphanumeric : isAlphanumeric c = false := by
    unfold isAlphanumeric
    split
    · next low =>
      exact forall_ascii (P := fun c => isBlank c = true → c.isAlphanum = false) (by decide) low blank
    · exact blank_not_alphanumeric_range blank
  simp [isWord, underscore, alphanumeric]

theorem isBlank_of_isWord {c : Char} (wordy : isWord c = true) : isBlank c = false := by
  rw [Bool.eq_false_iff]
  intro blank
  rw [isWord_of_isBlank blank] at wordy
  exact Bool.false_ne_true wordy

/-- A blank or a mark below the letters: it ends every word. -/
def endsWord (c : Char) : Bool :=
  isBlank c || (c.toNat < 65 && !isWord c)

theorem isWord_of_endsWord {c : Char} (ends : endsWord c = true) : isWord c = false := by
  simp only [endsWord, Bool.or_eq_true, Bool.and_eq_true, Bool.not_eq_true'] at ends
  rcases ends with blank | ⟨-, mark⟩
  · exact isWord_of_isBlank blank
  · exact mark

theorem isBlank_of_unended {c : Char} (unended : endsWord c = false) : isBlank c = false := by
  rw [endsWord, Bool.or_eq_false_iff] at unended
  exact unended.1

end VhdlWorkbench.Text

namespace VhdlWorkbench.Pattern

open List Text

variable {n : Nat} {p c : Char}

/-- The code of a character without its case. -/
def plainCode (c : Char) : Nat :=
  lowerCode c.toNat

/-- A word in letters of either case. -/
def Spells (word : String) (cs : List Char) : Prop :=
  cs.map Char.toLower = word.toList

instance (word : String) (cs : List Char) : Decidable (Spells word cs) :=
  inferInstanceAs (Decidable (_ = _))

theorem lowerRuns_images : lowerRuns.all (fun run =>
      128 ≤ run.2.2.2 || run == (304, 304, 1, 105) || run == (8490, 8490, 1, 107)) = true := by
  decide

theorem sameLetterPairs_firsts :
    sameLetterPairs.all (fun pair => 128 ≤ pair.1 || pair.1 == 105 || pair.1 == 115) = true := by
  decide

-- Two letters outside ASCII have a lower-case form in ASCII: the dotted capital I and the Kelvin sign.
theorem ascii_of_lowerCode (low : lowerCode n < 128) :
    n < 128 ∨ n = 304 ∧ lowerCode n = 105 ∨ n = 8490 ∧ lowerCode n = 107 := by
  by_cases ascii : n < 128
  · exact Or.inl ascii
  · right
    simp only [lowerCode, ascii, ↓reduceIte] at low ⊢
    cases found : lowerRun? n with
    | none =>
      rw [found] at low
      exact absurd low ascii
    | some run =>
      obtain ⟨first, last, step, image⟩ := run
      simp only [found] at low ⊢
      have member := mem_of_find?_eq_some found
      have holds := find?_some found
      have images := all_eq_true.mp lowerRuns_images _ member
      simp only [Bool.or_eq_true, decide_eq_true_eq, beq_iff_eq, Prod.mk.injEq] at images
      simp only [Bool.and_eq_true, decide_eq_true_eq] at holds
      omega

theorem sameLetters_eq_nil (ascii : n < 128) (dotted : n ≠ 105) (long : n ≠ 115) : sameLetters n = [] := by
  unfold sameLetters
  rw [map_eq_nil_iff, filter_eq_nil_iff]
  intro pair member
  have first := all_eq_true.mp sameLetterPairs_firsts pair member
  simp only [Bool.or_eq_true, decide_eq_true_eq, beq_iff_eq] at first
  rw [beq_iff_eq]
  omega

/-- The classes of characters are those of every script. -/
class Full (o : Options) : Prop where
  full : o.ascii = false

/-- Upper and lower case are not told apart in any script. -/
class Folds (o : Options) : Prop extends Full o where
  fold : o.ignoreCase = true

instance {i d m u v r : Bool} : Full ⟨i, d, m, false, u, v, r⟩ :=
  ⟨rfl⟩

instance {d m u v r : Bool} : Folds ⟨true, d, m, false, u, v, r⟩ :=
  ⟨rfl⟩

instance : Folds Declaration.lineOptions where
  full := rfl
  fold := rfl

instance : Folds Declaration.blockOptions where
  full := rfl
  fold := rfl

instance : Folds Layout.oneRow where
  full := rfl
  fold := rfl

variable {o : Options}

instance {node : Node} [h : Full o] : Full (Regex.ofNode o node).options :=
  h

instance {node : Node} [h : Folds o] : Folds (Regex.ofNode o node).options :=
  h

theorem charAccepts_of_plainCode [Folds o]
    (same : plainCode c = plainCode p) : charAccepts o p c = true := by
  simp only [plainCode] at same
  simp [charAccepts, sameLetter, foldCode, Folds.fold, Full.full, same]

theorem charAccepts_of_ascii [Folds o]
    (low : plainCode p < 128) (low' : plainCode c < 128) : charAccepts o p c = (plainCode c == plainCode p) := by
  simp only [plainCode] at low low' ⊢
  simp [charAccepts, sameLetter, foldCode, Folds.fold, Full.full, Nat.not_le.mpr low, Nat.not_le.mpr low']

theorem charAccepts_iff [Folds o]
    (low : plainCode p < 128) (dotted : plainCode p ≠ 105) (kelvin : plainCode p ≠ 107) (long : plainCode p ≠ 115) :
    charAccepts o p c = true ↔ c.toNat < 128 ∧ plainCode c = plainCode p := by
  have others := sameLetters_eq_nil low dotted long
  constructor
  · intro accepted
    simp only [plainCode] at *
    simp only [charAccepts, sameLetter, foldCode, Folds.fold, Full.full, Bool.false_and, Bool.false_eq_true,
      ↓reduceIte, Bool.or_eq_true, beq_iff_eq, Bool.and_eq_true, others, contains_nil,
      and_false, or_false] at accepted
    have ascii := ascii_of_lowerCode (accepted ▸ low)
    exact ⟨by omega, accepted⟩
  · rintro ⟨-, same⟩
    exact charAccepts_of_plainCode same

theorem charAccepts_mark [Folds o]
    (mark : p.toNat < 65) : charAccepts o p c = true ↔ c = p := by
  have code : plainCode p = p.toNat := by
    simp [plainCode, lowerCode, show p.toNat < 128 by omega, Nat.not_le.mpr mark]
  rw [charAccepts_iff (by omega) (by omega) (by omega) (by omega), code]
  constructor
  · rintro ⟨ascii, same⟩
    simp only [plainCode, lowerCode, ascii, ↓reduceIte] at same
    split at same
    · next capital =>
      simp only [Bool.and_eq_true, decide_eq_true_eq] at capital
      omega
    · exact Char.toNat_inj.mp same
  · rintro rfl
    exact ⟨by omega, code⟩

def apartRanges : List (Nat × Nat) :=
  (0, 64) :: blankRanges

theorem lowerRuns_apart : lowerRuns.all (fun run => apartRanges.all fun apart =>
      (run.2.1 < apart.1 || apart.2 < run.1) &&
        (run.2.2.2 + (run.2.1 - run.1) < apart.1 || apart.2 < run.2.2.2)) = true := by
  decide

theorem apart_not_capital : apartRanges.all (fun apart => apart.2 < 65 || 122 < apart.1) = true := by
  decide

theorem sameLetterPairs_apart :
    sameLetterPairs.all (fun pair => !inRanges apartRanges pair.2) = true := by
  decide

-- Blanks and marks have no other case, and are the other case of nothing.
theorem lowerCode_eq_iff {m : Nat} (apart : inRanges apartRanges m = true) :
    lowerCode n = m ↔ n = m := by
  obtain ⟨r, listed, lo, hi⟩ := (inRanges_iff _ _).mp apart
  have capital := all_eq_true.mp apart_not_capital r listed
  simp only [Bool.or_eq_true, decide_eq_true_eq] at capital
  unfold lowerCode
  split
  · split
    · next upper =>
      simp only [Bool.and_eq_true, decide_eq_true_eq] at upper
      omega
    · rfl
  · split
    · next run found =>
      have member := mem_of_find?_eq_some found
      have holds := find?_some found
      have gaps := all_eq_true.mp (all_eq_true.mp lowerRuns_apart _ member) r listed
      simp only [Bool.and_eq_true, Bool.or_eq_true, decide_eq_true_eq] at gaps holds
      omega
    · rfl

theorem toNat_ofNat_of_ne_zero (visible : (Char.ofNat n).toNat ≠ 0) : (Char.ofNat n).toNat = n := by
  by_cases valid : n.isValidChar
  · rw [Char.ofNat, dif_pos valid]
    rfl
  · rw [Char.ofNat, dif_neg valid] at visible
    exact absurd rfl visible

theorem isBlank_lowerChar (solid : isBlank c = false) : isBlank (lowerChar c) = false := by
  rw [Bool.eq_false_iff]
  intro blank
  have visible : (Char.ofNat (lowerCode c.toNat)).toNat ≠ 0 := by
    intro zero
    rw [isBlank, lowerChar, zero] at blank
    exact absurd blank (by decide)
  have code : (lowerChar c).toNat = lowerCode c.toNat := toNat_ofNat_of_ne_zero visible
  rw [isBlank, code] at blank
  have apart : inRanges apartRanges (lowerCode c.toNat) = true := by
    obtain ⟨r, listed, bounds⟩ := (inRanges_iff _ _).mp blank
    exact (inRanges_iff _ _).mpr ⟨r, mem_cons_of_mem _ listed, bounds⟩
  rw [← (lowerCode_eq_iff apart).mp rfl] at blank
  exact Bool.noConfusion (solid.symm.trans blank)

/-- Lower case leaves no blanks in a word, and something of it. -/
theorem toLower_solid {s : String} (nonempty : s ≠ "") (solid : ∀ c ∈ s.toList, isBlank c = false) :
    (toLower s).toList ≠ [] ∧ ∀ c ∈ (toLower s).toList, isBlank c = false := by
  rw [toLower, String.toList_ofList]
  have letters : s.toList ≠ [] := by simpa using nonempty
  generalize s.toList = cs at letters solid
  have each (before cs : List Char) (solid : ∀ c ∈ cs, isBlank c = false) :
      ∀ c ∈ lowerFrom before cs, isBlank c = false := by
    induction cs generalizing before with
    | nil => exact forall_mem_nil _
    | cons d cs ih =>
      rw [forall_mem_cons] at solid
      rw [lowerFrom, forall_mem_append]
      refine ⟨?_, ih _ solid.2⟩
      split
      · decide
      · split
        · split <;> decide
        · simpa using isBlank_lowerChar solid.1
  refine ⟨?_, each [] cs solid⟩
  obtain ⟨d, rest, rfl⟩ := exists_cons_of_ne_nil letters
  rw [lowerFrom]
  simp only [ne_eq, append_eq_nil_iff, not_and_or]
  left
  split
  · decide
  · split
    · split <;> decide
    · simp

theorem eq_of_charAccepts (apart : isBlank c = true ∨ c.toNat < 65)
    (accepted : charAccepts o p c = true) : p = c := by
  have outside : inRanges apartRanges c.toNat = true := by
    rw [inRanges_iff]
    rcases apart with blank | mark
    · obtain ⟨r, listed, bounds⟩ := (inRanges_iff _ _).mp blank
      exact ⟨r, mem_cons_of_mem _ listed, bounds⟩
    · exact ⟨(0, 64), mem_cons_self, Nat.zero_le _, Nat.le_of_lt_succ mark⟩
  have code : foldCode o c.toNat = c.toNat := by
    rw [foldCode, (lowerCode_eq_iff outside).mpr rfl, ite_self]
  have back (same : foldCode o p.toNat = c.toNat) : p = c := by
    rw [foldCode] at same
    split at same
    · exact Char.toNat_inj.mp same
    · exact Char.toNat_inj.mp ((lowerCode_eq_iff outside).mp same)
  rw [charAccepts] at accepted
  split at accepted
  · simp only [sameLetter, code, Bool.or_eq_true, beq_iff_eq, Bool.and_eq_true, contains_eq_mem,
      decide_eq_true_eq] at accepted
    rcases accepted with same | ⟨-, other⟩
    · exact back same.symm
    · obtain ⟨pair, member, second⟩ := mem_map.mp other
      have inside := all_eq_true.mp sameLetterPairs_apart pair (mem_of_mem_filter member)
      rw [second, outside] at inside
      exact absurd inside (by decide)
  · exact beq_iff_eq.mp accepted

theorem accepts_space [Full o] (c : Char) :
    Single.accepts o (.category false .space) c = isBlank c := by
  simp [Single.accepts, Category.accepts, Full.full]

theorem accepts_word [Full o] (c : Char) :
    Single.accepts o (.category false .word) c = isWord c := by
  simp [Single.accepts, Category.accepts, Full.full]

theorem plainCode_of_ascii (ascii : c.toNat < 128) : plainCode c = c.toLower.toNat :=
  forall_ascii (P := fun c => plainCode c = c.toLower.toNat) (by decide) ascii

theorem isWord_toLower_of_ascii (ascii : c.toNat < 128) : isWord c.toLower = isWord c :=
  forall_ascii (P := fun c => isWord c.toLower = isWord c) (by decide) ascii

theorem ascii_of_toLower (low : c.toLower.toNat < 128) : c.toNat < 128 := by
  unfold Char.toLower at low
  split at low
  · next capital =>
    have upper : c.toNat ≤ 'Z'.toNat := capital.2
    exact Nat.lt_of_le_of_lt upper (by decide)
  · exact low

theorem charAccepts_of_toLower [Folds o]
    (low : plainCode p < 128) (low' : c.toLower.toNat < 128) : charAccepts o p c = (c.toLower.toNat == plainCode p) := by
  have code := plainCode_of_ascii (ascii_of_toLower low')
  rw [charAccepts_of_ascii low (by omega), code]

theorem toLower_of_charAccepts [Folds o]
    (lower : plainCode p = p.toNat) (low : p.toNat < 128) (dotted : p.toNat ≠ 105)
    (kelvin : p.toNat ≠ 107) (long : p.toNat ≠ 115) (accepted : charAccepts o p c = true) : c.toLower = p := by
  rw [charAccepts_iff (by omega) (by omega) (by omega) (by omega)] at accepted
  rw [← Char.toNat_inj, ← plainCode_of_ascii accepted.1, accepted.2, lower]

variable {word : String} {cs : List Char}

/-- The letters of a keyword are in lower case. -/
def Lower (word : String) : Prop :=
  ∀ p ∈ word.toList, plainCode p = p.toNat ∧ p.toNat < 128 ∧ isWord p = true

instance (word : String) : Decidable (Lower word) :=
  inferInstanceAs (Decidable (∀ p ∈ word.toList, _))

theorem Spells.toLower_mem (spelled : Spells word cs) (member : c ∈ cs) : c.toLower ∈ word.toList := by
  rw [← show cs.map Char.toLower = word.toList from spelled]
  exact mem_map_of_mem member

theorem Spells.wordy (spelled : Spells word cs) (lower : Lower word) (member : c ∈ cs) : isWord c = true := by
  obtain ⟨-, low, wordy⟩ := lower _ (spelled.toLower_mem member)
  rwa [← isWord_toLower_of_ascii (ascii_of_toLower low)]

theorem Spells.length_eq (spelled : Spells word cs) : cs.length = word.length := by
  rw [← String.length_toList, ← show cs.map Char.toLower = word.toList from spelled, length_map]

theorem Spells.forall₂ (spelled : Spells word cs) (lower : Lower word) [Folds o]
    : Forall₂ (fun p c => charAccepts o p c = true) word.toList cs := by
  rw [← show cs.map Char.toLower = word.toList from spelled, forall₂_map_left_iff,
    forall₂_same]
  intro c member
  obtain ⟨plain, low, -⟩ := lower _ (spelled.toLower_mem member)
  apply charAccepts_of_plainCode
  rw [plain, plainCode_of_ascii (ascii_of_toLower low)]

theorem spells_of_pairs {R : Char → Char → Prop} (pairs : Forall₂ R word.toList cs)
    (each : ∀ p ∈ word.toList, ∀ c ∈ cs, R p c → c.toLower = p) : Spells word cs := by
  unfold Spells
  generalize word.toList = ps at pairs each ⊢
  induction pairs with
  | nil => rfl
  | cons first _ ih =>
    rw [map_cons, each _ mem_cons_self _ mem_cons_self first,
      ih fun p member c inside => each p (mem_cons_of_mem _ member) c (mem_cons_of_mem _ inside)]

theorem spells_of_forall₂ (lower : Lower word)
    (single : ∀ p ∈ word.toList, p.toNat ≠ 105 ∧ p.toNat ≠ 107 ∧ p.toNat ≠ 115)
    [Folds o]
    (pairs : Forall₂ (fun p c => charAccepts o p c = true) word.toList cs) : Spells word cs := by
  refine spells_of_pairs pairs fun p member c _ accepted => ?_
  obtain ⟨plain, low, -⟩ := lower p member
  obtain ⟨dotted, kelvin, long⟩ := single p member
  exact toLower_of_charAccepts plain low dotted kelvin long accepted

theorem lowerRuns_gaps : lowerRuns.all (fun run =>
      [305, 383].all fun n => run.2.2.2 + (run.2.1 - run.1) < n || n < run.2.2.2) = true := by
  decide

-- The dotless i and the long s are no lower-case forms of other letters.
theorem eq_of_lowerCode {m : Nat} (single : m = 305 ∨ m = 383) (image : lowerCode n = m) : n = m := by
  unfold lowerCode at image
  split at image
  · split at image <;> omega
  · split at image
    · next run found =>
      have member := mem_of_find?_eq_some found
      have holds := find?_some found
      have gaps := all_eq_true.mp (all_eq_true.mp lowerRuns_gaps _ member) m (by simpa using single)
      simp only [Bool.or_eq_true, decide_eq_true_eq] at gaps
      simp only [Bool.and_eq_true, decide_eq_true_eq] at holds
      omega
    · exact image

theorem sameLetters_special :
    sameLetters 105 = [305] ∧ sameLetters 107 = [] ∧ sameLetters 115 = [383] := by
  decide

theorem isWord_special : ∀ n ∈ [304, 305, 383, 8490], isWord (Char.ofNat n) = true := by
  decide +kernel

/-- A letter accepts its two forms in ASCII, and `i`, `k` and `s` accept letters outside it. -/
theorem charAccepts_cases [Folds o]
    (lower : plainCode p = p.toNat) (low : p.toNat < 128) (accepted : charAccepts o p c = true) :
    c.toNat < 128 ∧ c.toLower = p ∨ p.toNat = 105 ∧ (c.toNat = 304 ∨ c.toNat = 305) ∨
      p.toNat = 107 ∧ c.toNat = 8490 ∨ p.toNat = 115 ∧ c.toNat = 383 := by
  have ascii (inside : c.toNat < 128) (same : plainCode c = p.toNat) : c.toNat < 128 ∧ c.toLower = p := by
    rw [plainCode_of_ascii inside, Char.toNat_inj] at same
    exact ⟨inside, same⟩
  by_cases plain : p.toNat ≠ 105 ∧ p.toNat ≠ 107 ∧ p.toNat ≠ 115
  · obtain ⟨dotted, kelvin, long⟩ := plain
    obtain ⟨inside, same⟩ :=
      (charAccepts_iff (by omega) (by omega) (by omega) (by omega)).mp accepted
    exact Or.inl (ascii inside (same.trans lower))
  · simp only [plainCode] at lower
    simp only [charAccepts, sameLetter, foldCode, Folds.fold, Full.full, Bool.false_and, Bool.false_eq_true,
      ↓reduceIte, Bool.or_eq_true, beq_iff_eq, Bool.and_eq_true, lower, contains_eq_mem,
      decide_eq_true_eq] at accepted
    rcases accepted with same | ⟨-, other⟩
    · rcases ascii_of_lowerCode (same ▸ low) with inside | dotted | kelvin
      · exact Or.inl (ascii inside same)
      · omega
      · omega
    · obtain ⟨dotless, kelvin, long⟩ := sameLetters_special
      have letter : p.toNat = 105 ∨ p.toNat = 107 ∨ p.toNat = 115 := by omega
      rcases letter with same | same | same
      · rw [same, dotless, mem_singleton] at other
        have code := eq_of_lowerCode (Or.inl rfl) other
        omega
      · rw [same, kelvin] at other
        exact absurd other not_mem_nil
      · rw [same, long, mem_singleton] at other
        have code := eq_of_lowerCode (Or.inr rfl) other
        omega

theorem isWord_of_charAccepts [Folds o]
    (lower : plainCode p = p.toNat) (low : p.toNat < 128) (wordy : isWord p = true)
    (accepted : charAccepts o p c = true) : isWord c = true := by
  rcases charAccepts_cases lower low accepted with ⟨inside, rfl⟩ | special
  · rwa [← isWord_toLower_of_ascii inside]
  · have member : c.toNat ∈ [304, 305, 383, 8490] := by
      simp only [mem_cons, not_mem_nil, or_false]
      omega
    have word := isWord_special c.toNat member
    rwa [Char.ofNat_toNat] at word

/-- Which letters are one when case is ignored does not depend on the other options. -/
theorem charAccepts_fold [Folds o] (p c : Char) :
    charAccepts o p c = charAccepts { ignoreCase := true } p c := by
  have fold := Folds.fold (o := o)
  have full := Full.full (o := o)
  cases o
  cases fold
  cases full
  rfl

/-- A text has the letters of a word when case is ignored. -/
def Reads (word : String) (cs : List Char) : Prop :=
  Forall₂ (fun p c => charAccepts { ignoreCase := true } p c = true) word.toList cs

instance (word : String) (cs : List Char) : Decidable (Reads word cs) :=
  inferInstanceAs (Decidable (Forall₂ _ _ _))

theorem Reads.length_eq (reads : Reads word cs) : cs.length = word.length := by
  rw [← String.length_toList]
  exact (Forall₂.length_eq reads).symm

theorem Reads.each {S : Char → Prop} (reads : Reads word cs) (step : ∀ p ∈ word.toList, ∀ c,
    charAccepts { ignoreCase := true } p c = true → S c) : ∀ c ∈ cs, S c := by
  unfold Reads at reads
  generalize word.toList = ps at reads step
  induction reads with
  | nil => exact forall_mem_nil _
  | cons accepted _ ih =>
    rw [forall_mem_cons] at step ⊢
    exact ⟨step.1 _ accepted, ih step.2⟩

theorem Reads.wordy (reads : Reads word cs) (lower : Lower word) : ∀ c ∈ cs, isWord c = true := by
  refine reads.each fun p member c accepted => ?_
  obtain ⟨plain, low, wordy⟩ := lower p member
  exact isWord_of_charAccepts plain low wordy accepted

theorem reads_self (cs : List Char) : Reads (String.ofList cs) cs := by
  rw [Reads, String.toList_ofList, forall₂_same]
  exact fun c _ => charAccepts_of_plainCode rfl

theorem Reads.unended (reads : Reads word cs) (wordy : ∀ p ∈ word.toList, isWord p = true) :
    ∀ c ∈ cs, endsWord c = false := by
  refine reads.each fun p member c accepted => ?_
  rw [Bool.eq_false_iff]
  intro ends
  have apart : isBlank c = true ∨ c.toNat < 65 := by
    simp only [endsWord, Bool.or_eq_true, Bool.and_eq_true, decide_eq_true_eq] at ends
    exact ends.imp_right And.left
  obtain rfl := eq_of_charAccepts apart accepted
  exact absurd (isWord_of_endsWord ends) (by rw [wordy p member]; decide)

/-- The letters that read as `i` or `s` and have another lower-case form. -/
def foreignLetters : List Char :=
  ['İ', 'ı', 'ſ']

theorem Reads.spells (reads : Reads word cs) (lower : Lower word) (kelvin : ∀ p ∈ word.toList, p.toNat ≠ 107)
    (plain : ∀ c ∈ cs, c ∉ foreignLetters) : Spells word cs := by
  refine spells_of_pairs reads fun p member c inside accepted => ?_
  obtain ⟨code, low, -⟩ := lower p member
  have known := plain c inside
  simp only [foreignLetters, mem_cons, not_mem_nil, or_false, not_or, ← Char.toNat_inj] at known
  obtain ⟨dotted, dotless, long⟩ := known
  rcases charAccepts_cases code low accepted with ⟨-, same⟩ | ⟨-, special⟩ | ⟨k, -⟩ | ⟨-, special⟩
  · exact same
  · exact absurd special (not_or.mpr ⟨dotted, dotless⟩)
  · exact absurd k (kelvin p member)
  · exact absurd special long

theorem lowerChar_of_ascii (ascii : c.toNat < 128) : lowerChar c = c.toLower :=
  forall_ascii (P := fun c => lowerChar c = c.toLower) (by decide) ascii

theorem Spells.toLower_eq (spelled : Spells word cs) (lower : Lower word) : toLower (String.ofList cs) = word := by
  have ascii : ∀ c ∈ cs, c.toNat < 128 := fun c member =>
    ascii_of_toLower (lower _ (spelled.toLower_mem member)).2.1
  have image (before : List Char) : lowerFrom before cs = cs.map Char.toLower := by
    clear spelled
    induction cs generalizing before with
    | nil => rfl
    | cons c cs ih =>
      have low := ascii c mem_cons_self
      have dotted : c ≠ 'İ' := by
        rintro rfl
        exact absurd low (by decide)
      have sigma : c ≠ 'Σ' := by
        rintro rfl
        exact absurd low (by decide)
      simp only [lowerFrom, beq_iff_eq, dotted, sigma, ↓reduceIte, lowerChar_of_ascii low,
        singleton_append, map_cons, ih (fun d member => ascii d (mem_cons_of_mem c member))]
  rw [toLower, String.toList_ofList, image, show cs.map Char.toLower = word.toList from spelled,
    String.ofList_toList]

theorem Spells.not_reads {other : String} {q : Char} (spelled : Spells word cs) (lower : Lower word)
    (first : word.toList.head? = some q) (first' : other.toList.head? = some p)
    (low : plainCode p < 128) (apart : q.toNat ≠ plainCode p) : ¬Reads other cs := by
  intro reads
  unfold Spells at spelled
  unfold Reads at reads
  rw [← spelled] at first
  generalize other.toList = ps at first' reads
  cases reads with
  | nil => simp at first'
  | @cons a c as ds accepted _ =>
    obtain rfl := Option.some.inj first'
    obtain rfl : c.toLower = q := by simpa using first
    have small := (lower c.toLower (by rw [← spelled]; simp)).2.1
    rw [charAccepts_of_toLower low small, beq_iff_eq] at accepted
    exact apart accepted

theorem toLower_of_lowerChar (low : p.toNat < 128) (visible : p.toNat ≠ 0)
    (kelvin : p.toNat ≠ 107) (dotless : c ≠ 'İ') (lower : lowerChar c = p) : c.toLower = p := by
  have code : lowerCode c.toNat = p.toNat := by
    rw [← lower, lowerChar] at visible ⊢
    exact (toNat_ofNat_of_ne_zero visible).symm
  have image : lowerCode c.toNat < 128 := by omega
  have ascii : c.toNat < 128 := by
    rcases ascii_of_lowerCode image with ascii | ⟨dotted, -⟩ | ⟨-, other⟩
    · exact ascii
    · exact absurd (Char.toNat_inj.mp (dotted.trans (by decide : 304 = 'İ'.toNat))) dotless
    · omega
  rw [← Char.toNat_inj, ← plainCode_of_ascii ascii, plainCode, code]

section

variable (letters : ∀ p ∈ word.toList, p.toNat < 128 ∧ p.toNat ≠ 0 ∧ p.toNat ≠ 107)
include letters

theorem spells_of_lowerFrom {before : List Char} (lower : lowerFrom before cs = word.toList) : Spells word cs := by
  unfold Spells
  generalize word.toList = ps at letters lower ⊢
  induction cs generalizing before ps with
  | nil => exact lower
  | cons c cs ih =>
    subst lower
    unfold lowerFrom at letters ⊢
    by_cases dotted : c = 'İ'
    · have mark := letters '\u0307' (by simp [dotted])
      exact absurd mark.1 (by decide)
    · by_cases sigma : c = 'Σ'
      · simp only [beq_iff_eq, dotted, ↓reduceIte] at letters
        rw [if_pos sigma] at letters
        split at letters
        · exact absurd (letters 'ς' (mem_append_left _ mem_cons_self)).1 (by decide)
        · exact absurd (letters 'σ' (mem_append_left _ mem_cons_self)).1 (by decide)
      · simp only [beq_iff_eq, dotted, sigma, ↓reduceIte, singleton_append] at letters ⊢
        obtain ⟨low, visible, kelvin⟩ := letters _ mem_cons_self
        rw [map_cons, toLower_of_lowerChar low visible kelvin dotted rfl,
          ih _ (fun p member => letters p (mem_cons_of_mem _ member)) rfl]

theorem spells_of_toLower (lower : toLower (String.ofList cs) = word) : Spells word cs := by
  apply spells_of_lowerFrom letters
  rw [← lower, toLower, String.toList_ofList, String.toList_ofList]

end

end VhdlWorkbench.Pattern

namespace VhdlWorkbench.Declaration

open Pattern List Text

/-- The characters between the names of a list: blanks, word characters and commas. -/
theorem listChar_accepts_iff (c : Char) : listChar.accepts lineOptions c = true ↔
      isBlank c = true ∨ isWord c = true ∨ c = ',' := by
  have comma : memberAcceptsLetter lineOptions ',' c = true ↔ c = ',' :=
    charAccepts_mark (o := lineOptions) (by decide)
  simp [listChar, Single.accepts, SetItem.accepts, Category.accepts, lineOptions] at comma ⊢
  rw [comma]

theorem notSemicolon_accepts_iff (c : Char) : notSemicolon.accepts lineOptions c = true ↔ c ≠ ';' := by
  have semicolon := charAccepts_mark (o := lineOptions) (p := ';') (c := c) (by decide)
  simp [notSemicolon, Single.accepts, ← semicolon]

end VhdlWorkbench.Declaration

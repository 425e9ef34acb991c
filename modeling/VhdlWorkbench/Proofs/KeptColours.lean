import Mathlib.Data.List.Induction
import VhdlWorkbench.Proofs.Outcomes
import VhdlWorkbench.Proofs.Tables
import VhdlWorkbench.Scheme.Matcher

/-!
The answers that a matcher keeps: the foreground does not depend on what was asked before, the colours may depend on
the first question.
-/

namespace VhdlWorkbench.Scheme

open List Option Text Except

namespace Matcher

/-- A question to a matcher. -/
inductive Query where
  | foreground (scope : String)
  | colours (scope : String) (selected explicitBackground : Bool)
deriving DecidableEq, Repr

/-- The matcher that a question leaves behind; a question without an answer changes nothing. -/
def after (m : Matcher) : Query → Matcher
  | .foreground scope => ((m.foreground scope).toOption.map (·.2)).getD m
  | .colours scope selected explicit =>
    ((m.scopeColours scope selected explicit).toOption.map (·.2)).getD m

/-- The matcher that is left behind when all questions have been asked. -/
def afterAll (m : Matcher) (history : List Query) : Matcher :=
  history.foldl after m

/-- How a question asks for the background of a scope, if it asks for its colours. -/
def Query.asks (scope : String) : Query → Option Bool
  | .foreground _ => none
  | .colours other _ explicit => if other = scope then some explicit else none

/-- How the first question for the colours of a scope asks for the background. -/
def firstAsked (scope : String) (history : List Query) : Option Bool :=
  history.findSome? (Query.asks scope)

/-- Some rule with a background fits a scope. -/
def BackgroundFits (m : Matcher) (scope : String) : Prop :=
  ∃ scored, m.scored scope = .ok scored ∧
    ∃ found ∈ scored, found.1.background.colour.isSome = true ∧ 0 < found.2

/-- Of the entries that a test admits, the first one that fits best, and its score; none if none of them fits. -/
inductive FirstBest (admits : Entry → Bool) (rated : List (Entry × Nat)) : Option Entry × Nat → Prop where
  | nowhere (unfit : ∀ found ∈ rated, admits found.1 = true → found.2 = 0) : FirstBest admits rated (none, 0)
  | here {before after : List (Entry × Nat)} {entry : Entry} {score : Nat}
      (place : rated = before ++ (entry, score) :: after) (admitted : admits entry = true) (fits : 0 < score)
      (better : ∀ found ∈ before, admits found.1 = true → found.2 < score)
      (atLeast : ∀ found ∈ after, admits found.1 = true → found.2 ≤ score) :
      FirstBest admits rated (some entry, score)

section Best

variable {admits : Entry → Bool} {rated rated' : List (Entry × Nat)} {best best' : Option Entry × Nat}

theorem FirstBest.most (known : FirstBest admits rated best) :
    ∀ found ∈ rated, admits found.1 = true → found.2 ≤ best.2 := by
  intro found member admitted
  cases known with
  | nowhere unfit => exact Nat.le_of_eq (unfit found member admitted)
  | here place _ _ better atLeast =>
    subst place
    rcases mem_append.mp member with earlier | later
    · exact Nat.le_of_lt (better found earlier admitted)
    · rcases mem_cons.mp later with rfl | later
      · exact Nat.le_refl _
      · exact atLeast found later admitted

def bestStep (admits : Entry → Bool) (best : Option Entry × Nat) (found : Entry × Nat) : Option Entry × Nat :=
  if admits found.1 && best.2 < found.2 then (some found.1, found.2) else best

theorem firstBest_scan (admits : Entry → Bool) (rated : List (Entry × Nat)) :
    FirstBest admits rated (rated.foldl (bestStep admits) (none, 0)) := by
  induction rated using reverseRecOn with
  | nil => exact .nowhere (by simp)
  | append_singleton rated found ih =>
    rw [foldl_concat]
    generalize rated.foldl (bestStep admits) (none, 0) = best at ih
    unfold bestStep
    split
    · next outdone =>
      rw [Bool.and_eq_true, decide_eq_true_eq] at outdone
      refine .here rfl outdone.1 (by omega) (fun other member admitted => ?_) (by simp)
      exact Nat.lt_of_le_of_lt (ih.most other member admitted) outdone.2
    · next kept =>
      have less (admitted : admits found.1 = true) : found.2 ≤ best.2 := by simpa [admitted] using kept
      cases ih with
      | nowhere unfit =>
        refine .nowhere fun other member admitted => ?_
        rcases mem_append.mp member with earlier | last
        · exact unfit other earlier admitted
        · obtain rfl := mem_singleton.mp last
          exact Nat.le_zero.mp (less admitted)
      | @here before after entry score place admitted fits better atLeast =>
        have moved : rated ++ [found] = before ++ (entry, score) :: (after ++ [found]) := by simp [place]
        refine .here moved admitted fits better fun other member admits => ?_
        rcases mem_append.mp member with earlier | last
        · exact atLeast other earlier admits
        · obtain rfl := mem_singleton.mp last
          exact less admits

theorem firstBest_best? (admits : Entry → Bool) (rated : List (Entry × Nat)) :
    ∃ score, FirstBest admits rated (best? admits rated, score) :=
  ⟨_, firstBest_scan admits rated⟩

theorem best?_isSome_iff (admits : Entry → Bool) (scored : List (Entry × Nat)) :
    (best? admits scored).isSome = true ↔ ∃ found ∈ scored, admits found.1 = true ∧ 0 < found.2 := by
  obtain ⟨score, known⟩ := firstBest_best? admits scored
  generalize best? admits scored = best at known
  cases known with
  | nowhere unfit =>
    refine iff_of_false (by simp) ?_
    rintro ⟨found, member, admitted, fits⟩
    exact absurd (unfit found member admitted) (by omega)
  | here place admitted fits =>
    exact iff_of_true rfl ⟨(_, _), by rw [place]; simp, admitted, fits⟩

end Best

section Answers

variable {m : Matcher} {scope : String} {c : ScopeColours}

/-- The background that is taken from scored entries. -/
def backgroundFor (m : Matcher) (scored : List (Entry × Nat)) (explicit : Bool) : Shade :=
  ((best? (·.background.colour.isSome) scored).map (·.background)).getD
    (if explicit then {} else specialShade m.special "background")

-- Only the background of an answer depends on how it is asked for.
theorem colours_of_scored {scored : List (Entry × Nat)} (found : m.scored scope = .ok scored) :
    ∃ c : ScopeColours, ∀ explicit,
      m.colours scope explicit = .ok { c with background := backgroundFor m scored explicit } := by
  obtain ⟨c, given⟩ : ∃ c, m.colours scope false = .ok c := by
    simp only [colours, found]
    exact ⟨_, rfl⟩
  refine ⟨c, fun explicit => ?_⟩
  simp only [colours, found] at given ⊢
  obtain rfl := ok.inj given
  rfl

theorem colours_of_fault {fault : Fault} (failed : m.scored scope = .error fault)
    (explicit : Bool) : m.colours scope explicit = .error fault := by
  simp only [colours, failed]
  rfl

theorem exists_colours {explicit : Bool} (given : m.colours scope explicit = .ok c)
    (other : Bool) : ∃ c', m.colours scope other = .ok c' ∧ c'.foreground = c.foreground := by
  cases scored : m.scored scope with
  | error fault =>
    rw [colours_of_fault scored] at given
    exact absurd given (by simp)
  | ok scored' =>
    obtain ⟨c', all⟩ := colours_of_scored scored
    rw [all] at given
    obtain rfl := ok.inj given
    exact ⟨_, all other, rfl⟩

/-- The foreground in an answer that is kept. -/
def keptForeground : Kept → Option String
  | .foreground colour => colour
  | .all colours => colours.foreground.colour

theorem foreground_of_kept {answer : Kept} (kept : m.kept.lookup scope = some answer) :
    m.foreground scope = .ok (keptForeground answer, m) := by
  cases answer with
  | foreground colour => simp [foreground, kept, keptForeground, pure, Except.pure]
  | all colours => simp [foreground, kept, keptForeground, pure, Except.pure]

theorem foreground_of_unkept (unkept : m.kept.lookup scope = none) (explicit : Bool) :
    m.foreground scope = (m.colours scope explicit).map fun c =>
      (c.foreground.colour,
        { m with kept := Table.put m.kept scope (.foreground c.foreground.colour) }) := by
  simp only [foreground, unkept, colours]
  cases m.scored scope with
  | error fault => rfl
  | ok scored =>
    show ok _ = ok _
    cases best? hasPlainForeground scored <;> rfl

theorem scopeColours_of_kept (kept : m.kept.lookup scope = some (.all c))
    (selected explicit : Bool) :
    m.scopeColours scope selected explicit = .ok (if selected then m.select c else c, m) := by
  simp only [scopeColours, kept]
  rfl

theorem scopeColours_of_unkept (unkept : ∀ c, m.kept.lookup scope ≠ some (.all c))
    (selected explicit : Bool) :
    m.scopeColours scope selected explicit = (m.colours scope explicit).map fun c =>
      (if selected then m.select c else c, { m with kept := Table.put m.kept scope (.all c) }) := by
  simp only [scopeColours]
  cases kept : m.kept.lookup scope with
  | none => cases m.colours scope explicit <;> rfl
  | some answer =>
    cases answer with
    | all found => exact absurd kept (unkept found)
    | foreground colour => cases m.colours scope explicit <;> rfl

end Answers

/-- What a matcher has in mind after a history: nothing but its memory has changed, it keeps the colours of
the scopes that were asked for them, as the first question wanted them, and a foreground that it keeps
alone is right. -/
structure Remembers (fresh : Matcher) (history : List Query) (m : Matcher) : Prop where
  frame : m = { fresh with kept := m.kept }
  colours : ∀ scope c, m.kept.lookup scope = some (.all c) ↔
    ∃ explicit, firstAsked scope history = some explicit ∧ fresh.colours scope explicit = .ok c
  foreground : ∀ scope colour, m.kept.lookup scope = some (.foreground colour) →
    ∃ c, fresh.colours scope false = .ok c ∧ c.foreground.colour = colour

section History

variable {fresh m : Matcher} {history : List Query}

theorem firstAsked_append (scope : String) (history : List Query) (q : Query) :
    firstAsked scope (history ++ [q]) = (firstAsked scope history).or (q.asks scope) := by
  simp [firstAsked, findSome?_append, findSome?_cons]
  cases q.asks scope <;> simp

section

variable (known : Remembers fresh history m)
include known

theorem Remembers.colours_eq (scope : String) (explicit : Bool) :
    m.colours scope explicit = fresh.colours scope explicit := by
  rw [known.frame]
  rfl

theorem Remembers.unasked {scope : String} {explicit : Bool} {c : ScopeColours}
    (given : fresh.colours scope explicit = .ok c) (unkept : ∀ c, m.kept.lookup scope ≠ some (.all c)) :
    firstAsked scope history = none := by
  cases asked : firstAsked scope history with
  | none => rfl
  | some first =>
    obtain ⟨c', other, -⟩ := exists_colours given first
    exact absurd ((known.colours scope c').mpr ⟨first, asked, other⟩) (unkept c')

theorem Remembers.congr {history' : List Query}
    (same : ∀ scope c, (∃ explicit, firstAsked scope history' = some explicit ∧ fresh.colours scope explicit = .ok c) ↔ ∃ explicit, firstAsked scope history = some explicit ∧ fresh.colours scope explicit = .ok c) :
    Remembers fresh history' m :=
  ⟨known.frame, fun scope c => (known.colours scope c).trans (same scope c).symm, known.foreground⟩

theorem Remembers.after_foreground (scope : String) :
    Remembers fresh (history ++ [.foreground scope]) (m.after (.foreground scope)) := by
  have same (other : String) :
      firstAsked other (history ++ [.foreground scope]) = firstAsked other history := by
    rw [firstAsked_append]
    exact or_none
  have unchanged : Remembers fresh (history ++ [.foreground scope]) m :=
    known.congr fun other c => by rw [same]
  cases kept : m.kept.lookup scope with
  | some answer =>
    simpa only [after, foreground_of_kept kept, Except.toOption, map_some, getD_some]
      using unchanged
  | none =>
    simp only [after, foreground_of_unkept kept false, known.colours_eq]
    cases given : fresh.colours scope false with
    | error fault => exact unchanged
    | ok c =>
      simp only [Except.map, Except.toOption, map_some, getD_some]
      refine ⟨?_, fun other c' => ?_, fun other colour => ?_⟩
      · rw [known.frame]
      · rw [Table.lookup_put, ← unchanged.colours]
        by_cases own : other = scope
        · simp [own, kept]
        · simp [beq_eq_false_iff_ne.mpr own]
      · rw [Table.lookup_put]
        by_cases own : other = scope
        · subst own
          simp only [beq_self_eq_true, ↓reduceIte, some.injEq, Kept.foreground.injEq]
          exact fun equal => ⟨c, given, equal⟩
        · simpa [beq_eq_false_iff_ne.mpr own] using known.foreground other colour

theorem Remembers.after_colours (scope : String) (selected explicit : Bool) :
    Remembers fresh (history ++ [.colours scope selected explicit])
      (m.after (.colours scope selected explicit)) := by
  have others {other : String} (apart : other ≠ scope) :
      firstAsked other (history ++ [.colours scope selected explicit]) = firstAsked other history := by
    rw [firstAsked_append, Query.asks, if_neg (Ne.symm apart)]
    exact or_none
  have own : firstAsked scope (history ++ [.colours scope selected explicit]) =
      (firstAsked scope history).or (some explicit) := by
    rw [firstAsked_append, Query.asks, if_pos rfl]
  by_cases kept : ∃ c, m.kept.lookup scope = some (.all c)
  · obtain ⟨c, kept⟩ := kept
    obtain ⟨first, asked, -⟩ := (known.colours scope c).mp kept
    simp only [after, scopeColours_of_kept kept, Except.toOption, map_some, getD_some]
    refine known.congr fun other c => ?_
    by_cases apart : other = scope
    · rw [apart, own, asked, some_or]
    · rw [others apart]
  · have unkept : ∀ c, m.kept.lookup scope ≠ some (.all c) := fun c at_hand => kept ⟨c, at_hand⟩
    simp only [after, scopeColours_of_unkept unkept, known.colours_eq]
    cases given : fresh.colours scope explicit with
    | error fault =>
      have nothing (c : ScopeColours) (way : Bool) : fresh.colours scope way ≠ .ok c := by
        intro found
        obtain ⟨c', other, -⟩ := exists_colours found explicit
        rw [given] at other
        exact absurd other (by simp)
      refine known.congr fun other c => ?_
      by_cases apart : other = scope
      · subst apart
        simp [nothing]
      · rw [others apart]
    | ok c =>
      have first := known.unasked given unkept
      simp only [Except.map, Except.toOption, map_some, getD_some]
      refine ⟨?_, fun other c' => ?_, fun other colour => ?_⟩
      · rw [known.frame]
      · rw [Table.lookup_put]
        by_cases apart : other = scope
        · subst apart
          simp [own, first, given]
        · simpa [beq_eq_false_iff_ne.mpr apart, others apart] using known.colours other c'
      · rw [Table.lookup_put]
        by_cases apart : other = scope
        · simp [apart]
        · simpa [beq_eq_false_iff_ne.mpr apart] using known.foreground other colour

end

theorem remembers_afterAll (fresh : Matcher) (unasked : fresh.kept = []) (history : List Query) :
    Remembers fresh history (fresh.afterAll history) := by
  have start : Remembers fresh [] fresh := by
    refine ⟨rfl, ?_, ?_⟩
    · simp [unasked, firstAsked]
    · simp [unasked]
  have run (rest past : List Query) (m : Matcher) (known : Remembers fresh past m) :
      Remembers fresh (past ++ rest) (m.afterAll rest) := by
    induction rest generalizing past m with
    | nil => simpa [afterAll] using known
    | cons q rest ih =>
      rw [append_cons]
      apply ih
      cases q with
      | foreground scope => exact known.after_foreground scope
      | colours scope selected explicit => exact known.after_colours scope selected explicit
  exact run history [] fresh start

theorem foreground_afterAll (fresh : Matcher) (unasked : fresh.kept = []) (history : List Query)
    (scope : String) (explicit : Bool) :
    ((fresh.afterAll history).foreground scope).map (·.1) =
      (fresh.colours scope explicit).map (·.foreground.colour) := by
  have known := remembers_afterAll fresh unasked history
  cases kept : (fresh.afterAll history).kept.lookup scope with
  | none =>
    rw [foreground_of_unkept kept explicit, known.colours_eq]
    cases fresh.colours scope explicit <;> rfl
  | some answer =>
    rw [foreground_of_kept kept]
    obtain ⟨way, c, given, same⟩ : ∃ way c, fresh.colours scope way = .ok c ∧
        c.foreground.colour = keptForeground answer := by
      cases answer with
      | foreground colour =>
        obtain ⟨c, given, same⟩ := known.foreground scope colour kept
        exact ⟨false, c, given, same⟩
      | all c =>
        obtain ⟨first, -, given⟩ := (known.colours scope c).mp kept
        exact ⟨first, c, given, rfl⟩
    obtain ⟨c', other, alike⟩ := exists_colours given explicit
    rw [other, ← same, ← alike]
    rfl

/-- The colours of a scope are those of a new matcher that is asked for the background as in the first
question for the colours of this scope. -/
theorem scopeColours_afterAll (fresh : Matcher) (unasked : fresh.kept = []) (history : List Query)
    (scope : String) (selected explicit : Bool) :
    ((fresh.afterAll history).scopeColours scope selected explicit).map (·.1) =
      (fresh.colours scope ((firstAsked scope history).getD explicit)).map fun c =>
        if selected then fresh.select c else c := by
  have known := remembers_afterAll fresh unasked history
  have select : (fresh.afterAll history).select = fresh.select := by
    rw [known.frame]
    rfl
  by_cases kept : ∃ c, (fresh.afterAll history).kept.lookup scope = some (.all c)
  · obtain ⟨c, kept⟩ := kept
    obtain ⟨first, asked, given⟩ := (known.colours scope c).mp kept
    rw [scopeColours_of_kept kept, asked, getD_some, given, select]
    rfl
  · have unkept : ∀ c, (fresh.afterAll history).kept.lookup scope ≠ some (.all c) :=
      fun c at_hand => kept ⟨c, at_hand⟩
    rw [scopeColours_of_unkept unkept, known.colours_eq, select]
    cases given : fresh.colours scope explicit with
    | ok c =>
      rw [known.unasked given unkept, getD_none, given]
      rfl
    | error fault =>
      cases scored : fresh.scored scope with
      | error fault' =>
        rw [colours_of_fault scored] at given
        obtain rfl := error.inj given
        rw [colours_of_fault scored]
        rfl
      | ok found =>
        obtain ⟨c, all⟩ := colours_of_scored scored
        rw [all] at given
        exact absurd given (by simp)

end History

section Built

variable {background : Option String} {colour : String}

theorem shade_colour (hashed : startsWith colour "#" = true) {s : Shade}
    (given : shade background (some colour) = .ok s) : s.colour = some colour := by
  simp only [shade, hashed, Bool.not_true, Bool.false_eq_true, ↓reduceIte] at given
  obtain ⟨rgba, -, given⟩ := bind_eq_ok.mp given
  cases background with
  | none =>
    obtain rfl := ok.inj given
    rfl
  | some back =>
    obtain ⟨seen, -, given⟩ := bind_eq_ok.mp given
    obtain rfl := ok.inj given
    rfl

theorem specialColours_colour {options : List (String × String)} {special : List (String × Shade)}
    (hashed : ∀ entry ∈ options, startsWith entry.2 "#" = true)
    (given : specialColours options = .ok special) :
    (specialShade special "background").colour.isSome = true ∧
      (specialShade special "selection").colour.isSome = true := by
  have marked (key default : String) (plain : startsWith default "#" = true) :
      startsWith ((options.lookup key).getD default) "#" = true := by
    cases found : options.lookup key with
    | none => exact plain
    | some colour => exact hashed _ (Table.mem_of_lookup found)
  obtain ⟨back, first, given⟩ := bind_eq_ok.mp given
  obtain ⟨fore, -, given⟩ := bind_eq_ok.mp given
  obtain ⟨selection, second, given⟩ := bind_eq_ok.mp given
  obtain ⟨_, -, given⟩ := bind_eq_ok.mp given
  obtain ⟨_, -, given⟩ := bind_eq_ok.mp given
  obtain ⟨_, -, given⟩ := bind_eq_ok.mp given
  obtain ⟨_, -, given⟩ := bind_eq_ok.mp given
  obtain ⟨_, -, given⟩ := bind_eq_ok.mp given
  obtain rfl := ok.inj given
  have front := shade_colour (marked "background" "#FFFFFF" (by decide)) first
  have behind := shade_colour (marked "selection" "#0000FF" (by decide)) second
  constructor
  · simp [specialShade, front]
  · simp [specialShade, lookup_cons, behind]

/-- A matcher that was built keeps nothing yet, and its scheme has a background and a colour behind
selected text. -/
theorem built_special {e : Edition} {platform : Files.Platform} {r : Files.Resources} {scheme : String}
    {m : Matcher} (built : build e platform r scheme = .ok m) :
    m.kept = [] ∧ (specialShade m.special "background").colour.isSome = true ∧
      (specialShade m.special "selection").colour.isSome = true := by
  obtain ⟨loaded, -, built⟩ := bind_eq_ok.mp built
  obtain ⟨⟨document, values⟩, -, built⟩ := bind_eq_ok.mp built
  obtain ⟨globals, -, built⟩ := bind_eq_ok.mp built
  obtain ⟨options, -, built⟩ := bind_eq_ok.mp built
  obtain ⟨special, given, built⟩ := bind_eq_ok.mp built
  obtain ⟨rules, -, built⟩ := bind_eq_ok.mp built
  obtain ⟨parts, -, built⟩ := bind_eq_ok.mp built
  obtain ⟨entries, -, built⟩ := bind_eq_ok.mp built
  obtain rfl := ok.inj built
  refine ⟨rfl, specialColours_colour (fun entry member => ?_) given⟩
  obtain ⟨⟨key, value⟩, -, kept⟩ := mem_filterMap.mp member
  obtain ⟨s, -, kept⟩ := bind_eq_some_iff.mp kept
  split at kept
  · next hashed =>
    obtain rfl := some.inj kept
    exact hashed
  · exact absurd kept (by simp)

theorem select_background {m : Matcher}
    (behind : (specialShade m.special "selection").colour.isSome = true) (c : ScopeColours)
    (one other : Shade) :
    m.select { c with background := one } = m.select { c with background := other } := by
  obtain ⟨colour, behind⟩ := isSome_iff_exists.mp behind
  simp only [select, behind]
  cases c.selection.colour <;> rfl

theorem backgroundFor_eq_iff {m : Matcher}
    (back : (specialShade m.special "background").colour.isSome = true) (scored : List (Entry × Nat))
    (one other : Bool) :
    backgroundFor m scored one = backgroundFor m scored other ↔
      one = other ∨ ∃ found ∈ scored, found.1.background.colour.isSome = true ∧ 0 < found.2 := by
  rw [← best?_isSome_iff fun entry => entry.background.colour.isSome]
  have visible : specialShade m.special "background" ≠ {} := by
    intro none
    rw [none] at back
    exact absurd back (by decide)
  unfold backgroundFor
  cases best? (fun entry => entry.background.colour.isSome) scored with
  | some entry => simp
  | none => cases one <;> cases other <;> simp [visible, visible.symm]

def plainScheme : String :=
  "Packages/User/Plain.sublime-color-scheme"

def plainResources : Files.Resources :=
  ⟨[(plainScheme, some "\x7b\x7d")], {}⟩

theorem plain_backgrounds :
    ((build {} .linux plainResources plainScheme).toOption.map fun m =>
      (((m.afterAll [.colours "comment" false true]).scopeColours "comment" false false).toOption.map
        (·.1.background), (m.scopeColours "comment" false false).toOption.map (·.1.background))) =
    some (some {}, some ⟨some "#FFFFFF", some "#FFFFFF"⟩) := by
  decide

theorem plain_built :
    ∃ m, build {} .linux plainResources plainScheme = .ok m ∧
      ((m.afterAll [.colours "comment" false true]).scopeColours "comment" false false).toOption.map
        (·.1.background) = some {} ∧
      (m.scopeColours "comment" false false).toOption.map (·.1.background) =
        some ⟨some "#FFFFFF", some "#FFFFFF"⟩ := by
  obtain ⟨m, built, shown⟩ := map_eq_some_iff.mp plain_backgrounds
  refine ⟨m, ?_, (Prod.mk.inj shown).1, (Prod.mk.inj shown).2⟩
  cases found : build {} .linux plainResources plainScheme with
  | error fault => simp [found, Except.toOption] at built
  | ok other =>
    rw [found] at built
    rw [some.inj built]

variable {e : Edition} {platform : Files.Platform} {r : Files.Resources} {scheme : String} {m₀ : Matcher}

/-- However a matcher was asked before, and however the editor scores selectors, the foreground of a scope is
that in the colours of text that is not selected, as a new matcher gives them. -/
theorem foreground_ignores_history (built : build e platform r scheme = .ok m₀)
    (fit : String → String → Nat) (history : List Query) (scope : String) (explicit : Bool) :
    let m := { m₀ with fit := fit }
    ((m.afterAll history).foreground scope).map (·.1) =
      (m.scopeColours scope false explicit).map (·.1.foreground.colour) := by
  intro m
  have unasked : m.kept = [] := (built_special built).1
  have unkept : ∀ c, m.kept.lookup scope ≠ some (.all c) := by simp [unasked]
  rw [foreground_afterAll m unasked history scope explicit, scopeColours_of_unkept unkept]
  cases m.colours scope explicit <;> rfl

theorem foreground_ignores_history_plain :
    ∃ m, build {} .linux plainResources plainScheme = .ok m ∧
      ((m.afterAll [.colours "comment" true true, .foreground "string"]).foreground "comment").map (·.1) =
        (m.scopeColours "comment" false false).map (·.1.foreground.colour) := by
  obtain ⟨m, built, -⟩ := plain_built
  exact ⟨m, built, foreground_ignores_history built m.fit _ "comment" false⟩

/-- An answer on the colours of a scope after a history is that of a new matcher exactly if the text is
selected, or the background is asked for as it was first, or it comes from a rule, or there is no answer. -/
theorem colours_after_history_iff (built : build e platform r scheme = .ok m₀)
    (fit : String → String → Nat) (history : List Query) (scope : String) (selected explicit : Bool) :
    let m := { m₀ with fit := fit }
    ((m.afterAll history).scopeColours scope selected explicit).map (·.1) =
        (m.scopeColours scope selected explicit).map (·.1) ↔
      selected = true ∨ (∀ first, firstAsked scope history = some first → first = explicit) ∨
        BackgroundFits m scope ∨ ∃ fault, m.scopeColours scope selected explicit = .error fault := by
  intro m
  obtain ⟨unasked, back, behind⟩ := built_special built
  change m.kept = [] at unasked
  change (specialShade m.special _).colour.isSome = true at back behind
  have unkept : ∀ c, m.kept.lookup scope ≠ some (.all c) := by simp [unasked]
  rw [scopeColours_afterAll m unasked, scopeColours_of_unkept unkept]
  cases scored : m.scored scope with
  | error fault =>
    simp only [colours_of_fault scored]
    exact iff_of_true rfl (Or.inr (Or.inr (Or.inr ⟨fault, rfl⟩)))
  | ok found =>
    obtain ⟨c, all⟩ := colours_of_scored scored
    have fits : BackgroundFits m scope ↔
        ∃ rule ∈ found, rule.1.background.colour.isSome = true ∧ 0 < rule.2 := by
      simp [BackgroundFits, scored]
    have asked : (∀ first, firstAsked scope history = some first → first = explicit) ↔
        (firstAsked scope history).getD explicit = explicit := by
      cases firstAsked scope history <;> simp
    rw [fits, asked, all, all]
    cases selected with
    | true => simp [Except.map, select_background behind c _ (backgroundFor m found explicit)]
    | false =>
      have shown := backgroundFor_eq_iff back found ((firstAsked scope history).getD explicit) explicit
      simpa [Except.map] using shown

theorem colours_after_history_iff_plain :
    ∃ m, build {} .linux plainResources plainScheme = .ok m ∧
      ((m.afterAll [.foreground "comment", .colours "comment" false true]).scopeColours
          "comment" true false).map (·.1) =
        (m.scopeColours "comment" true false).map (·.1) := by
  obtain ⟨m, built, -⟩ := plain_built
  have law := colours_after_history_iff built m.fit [.foreground "comment", .colours "comment" false true]
    "comment" true false
  exact ⟨m, built, law.mpr (Or.inl rfl)⟩

/-- Once a scope has been asked for an explicit background, it has none any more. -/
theorem background_lost_by_explicit_question :
    ∃ m, build {} .linux plainResources plainScheme = .ok m ∧
      ((m.afterAll [.colours "comment" false true]).scopeColours "comment" false false).map (·.1) ≠
        (m.scopeColours "comment" false false).map (·.1) := by
  obtain ⟨m, built, late, new⟩ := plain_built
  refine ⟨m, built, fun same => ?_⟩
  have shown := congrArg (fun answer => answer.toOption.map (·.background)) same
  have inside {x : Except Fault (ScopeColours × Matcher)} :
      (x.map (·.1)).toOption.map (·.background) = x.toOption.map (·.1.background) := by
    cases x <;> rfl
  simp only [inside, late, new] at shown
  exact absurd shown (by decide)

end Built

end Matcher

end VhdlWorkbench.Scheme

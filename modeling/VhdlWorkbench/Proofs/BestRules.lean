import Mathlib.Data.List.Nodup
import Mathlib.Data.List.ReduceOption
import VhdlWorkbench.Proofs.KeptColours

/-!
The rules that decide the colours and the style of a scope, for rules of distinct scopes and any way of scoring them.
-/

namespace VhdlWorkbench.Scheme

open List Except
open Table (put lookup_put)

namespace Matcher

section Best

variable {admits : Entry → Bool} {rated rated' : List (Entry × Nat)} {best best' : Option Entry × Nat}

/-- An entry that fits better than a given score and than all entries before it. -/
def Leads (rated : List (Entry × Nat)) (least : Nat) (entry : Entry) : Prop :=
  ∃ before score after, rated = before ++ (entry, score) :: after ∧ least < score ∧ ∀ found ∈ before, found.2 < score

/-- No two entries that fit a scope fit it alike. -/
def DistinctScores (rated : List (Entry × Nat)) : Prop :=
  ((rated.filter (0 < ·.2)).map (·.2)).Nodup

theorem FirstBest.found {entry : Entry} {score : Nat} (known : FirstBest admits rated (some entry, score)) :
    (entry, score) ∈ rated ∧ admits entry = true ∧ 0 < score := by
  cases known with
  | here place admitted fits => exact ⟨by simp [place], admitted, fits⟩

/-- If no two entries fit alike, the best one does not depend on their order. -/
theorem FirstBest.perm (known : FirstBest admits rated best) (known' : FirstBest admits rated' best')
    (perm : rated.Perm rated') (distinct : DistinctScores rated) : best = best' := by
  have unfit {seen other : List (Entry × Nat)} {entry : Entry} {score : Nat} (perm : seen.Perm other)
      (nothing : FirstBest admits seen (none, 0)) (something : FirstBest admits other (some entry, score)) : False := by
    obtain ⟨member, admitted, fits⟩ := something.found
    exact absurd (nothing.most _ (perm.mem_iff.mpr member) admitted) (Nat.not_le_of_lt fits)
  rcases best with ⟨_ | entry, score⟩ <;> rcases best' with ⟨_ | entry', score'⟩
  · cases known
    cases known'
    rfl
  · cases known with | nowhere nothing => exact (unfit perm (.nowhere nothing) known').elim
  · cases known' with | nowhere nothing => exact (unfit perm.symm (.nowhere nothing) known).elim
  · obtain ⟨member, admitted, fits⟩ := known.found
    obtain ⟨member', admitted', fits'⟩ := known'.found
    have less := known.most _ (perm.mem_iff.mpr member') admitted'
    have more := known'.most _ (perm.mem_iff.mp member) admitted
    have same := inj_on_of_nodup_map distinct (mem_filter.mpr ⟨member, decide_eq_true fits⟩)
      (mem_filter.mpr ⟨perm.mem_iff.mpr member', decide_eq_true fits'⟩) (Nat.le_antisymm more less)
    simpa using same

theorem FirstBest.leads {entry : Entry} {score : Nat}
    (known : FirstBest (fun _ => true) rated (some entry, score)) : Leads rated 0 entry := by
  cases known with
  | here place _ fits better => exact ⟨_, _, _, place, fits, fun found member => better found member rfl⟩

theorem leads_cons {found : Entry × Nat} {least : Nat} {entry : Entry} :
    Leads (found :: rated) least entry ↔ entry = found.1 ∧ least < found.2 ∨ Leads rated (max least found.2) entry := by
  constructor
  · rintro ⟨before, score, after, place, fits, better⟩
    cases before with
    | nil =>
      obtain ⟨rfl, rfl⟩ := cons.inj place
      exact Or.inl ⟨rfl, fits⟩
    | cons first before =>
      obtain ⟨rfl, rfl⟩ := cons.inj place
      have outdone := better _ mem_cons_self
      exact Or.inr ⟨before, score, after, rfl, by omega, fun other member => better other (mem_cons_of_mem _ member)⟩
  · rintro (⟨rfl, fits⟩ | ⟨before, score, after, rfl, fits, better⟩)
    · exact ⟨[], found.2, rated, rfl, fits, by simp⟩
    · refine ⟨found :: before, score, after, rfl, by omega, fun other member => ?_⟩
      rcases mem_cons.mp member with rfl | later
      · omega
      · exact better other later

theorem mem_risers {entry : Entry} : entry ∈ risers rated ↔ Leads rated 0 entry := by
  suffices scan : ∀ (rated : List (Entry × Nat)) (acc : List Entry × Nat),
      entry ∈ (rated.foldl (fun acc found => if acc.2 < found.2 then (acc.1 ++ [found.1], found.2) else acc) acc).1 ↔
        entry ∈ acc.1 ∨ Leads rated acc.2 entry from
    (scan rated ([], 0)).trans (by simp)
  intro rated
  induction rated with
  | nil => simp [Leads]
  | cons found rated ih =>
    intro acc
    rw [foldl_cons, ih, leads_cons]
    by_cases outdone : acc.2 < found.2
    · simp [outdone, Nat.max_eq_right (Nat.le_of_lt outdone), or_assoc]
    · simp [outdone, Nat.max_eq_left (Nat.le_of_not_lt outdone)]

end Best

end Matcher

/-- The scope that a rule names. -/
def scopeOf? (rule : Json) : Option Json :=
  present? rule.members "scope"

/-- The scopes that rules name are texts, no two of them alike. -/
def DistinctScopes (rules : List Json) : Prop :=
  (rules.filterMap scopeOf?).Nodup ∧ ∀ scope ∈ rules.filterMap scopeOf?, ∃ selector, scope = .text selector

theorem DistinctScopes.perm {rules rules' : List Json} (distinct : DistinctScopes rules) (perm : rules.Perm rules') :
    DistinctScopes rules' :=
  have scopes := perm.filterMap scopeOf?
  ⟨scopes.nodup_iff.mp distinct.1, fun scope member => distinct.2 scope (scopes.mem_iff.mpr member)⟩

theorem entryOf_put (d : Document) (key other : String) (value : Json) :
    entryOf (put d key value) other = if other = key then .ok value else entryOf d other := by
  by_cases same : other = key <;> simp [entryOf, lookup_put, same]

theorem globalsKey_apart (e : Edition) : e.globalsKey ≠ "variables" ∧ e.globalsKey ≠ "rules" := by
  unfold Edition.globalsKey
  split <;> decide

theorem bind_ok {α β : Type} (a : α) (f : α → Except Fault β) : (ok a >>= f) = f a :=
  rfl

namespace Matcher

/-- The matcher with another way of scoring selectors. -/
def withFit (m : Matcher) (fit : String → String → Nat) : Matcher :=
  { m with fit }

/-- What a rule of the scheme enters, once its colours are evaluated. -/
def rowOf (e : Edition) (m : Matcher) (rule : Json) : Except Fault (Option (String × Entry)) := do
  entryOfRule? e m.special (← evalRule m.values rule)

/-- What the rules enter, in their order, and how well each entry fits a scope. -/
def Rated (e : Edition) (m : Matcher) (scope : String) (rules : List Json) (rated : List (Entry × Nat)) : Prop :=
  ∃ found, rules.mapM (m.rowOf e) = .ok found ∧
    rated = found.reduceOption.map fun (key, entry) => (entry, m.fit scope key)

section Rules

variable {e : Edition} {m : Matcher} {rule : Json} {key : String} {entry : Entry}

theorem lookup_evalMember {values : List (String × String)} {lists : Bool} {key other : String}
    {members members' : List (String × Json)} (done : evalMember values lists key members = .ok members')
    (apart : other ≠ key) : members'.lookup other = members.lookup other := by
  have put (value : Json) : (put members key value).lookup other = members.lookup other := by
    rw [lookup_put, if_neg (by simpa using apart)]
  unfold evalMember at done
  split at done
  · obtain ⟨colour, -, done⟩ := bind_eq_ok.mp done
    cases done
    exact put _
  · split at done
    · obtain ⟨items, -, done⟩ := bind_eq_ok.mp done
      cases done
      exact put _
    · cases done
      rfl
  · cases done
    rfl

theorem evalMember_absent {values : List (String × String)} {lists : Bool} {key : String} {members : List (String × Json)}
    (absent : present? members key = none) : evalMember values lists key members = .ok members := by
  unfold present? at absent
  unfold evalMember
  split at absent
  · next null =>
    rw [null]
    rfl
  · rw [absent]
    rfl

theorem present?_evalRule {values : List (String × String)} {rule rule' : Json} {key : String}
    (done : evalRule values rule = .ok rule') (apart : key ≠ "background" ∧ key ≠ "selection_foreground")
    (plain : key ≠ "foreground" ∨ present? rule.members "foreground" = none) :
    present? rule'.members key = present? rule.members key := by
  obtain ⟨members, object, done⟩ := bind_eq_ok.mp done
  obtain rfl : rule = .object members := by cases rule <;> simp_all [membersOf]
  split at done
  · cases done
    rfl
  · obtain ⟨first, done₁, done⟩ := bind_eq_ok.mp done
    obtain ⟨second, done₂, done⟩ := bind_eq_ok.mp done
    obtain ⟨third, done₃, done⟩ := bind_eq_ok.mp done
    cases done
    have kept : first.lookup key = members.lookup key := by
      rcases plain with other | absent
      · exact lookup_evalMember done₁ other
      · rw [ok.inj (done₁.symm.trans (evalMember_absent absent))]
    simp only [present?, Json.members]
    rw [lookup_evalMember done₃ apart.2, lookup_evalMember done₂ apart.1, kept]

/-- A rule enters something exactly if it names a scope: an entry of that scope, with words for its style and with a
foreground only if the rule has one. -/
theorem rowOf_cases {found : Option (String × Entry)} (done : m.rowOf e rule = .ok found) :
    (scopeOf? rule = none ∧ found = none) ∨ ∃ key entry, found = some (key, entry) ∧ scopeOf? rule = some entry.scope ∧
      scopeKey entry.scope = .ok key ∧ (∀ word ∈ entry.style, word = "bold" ∨ word = "italic") ∧
      (present? rule.members "foreground" = none → hasPlainForeground entry = false) := by
  obtain ⟨rule', evaluated, done⟩ := bind_eq_ok.mp done
  have bare (absent : present? rule.members "foreground" = none) : present? rule'.members "foreground" = none :=
    (present?_evalRule evaluated (by decide) (Or.inr absent)).trans absent
  rw [scopeOf?, ← present?_evalRule evaluated (by decide) (Or.inl (by decide))]
  obtain ⟨members, object, done⟩ := bind_eq_ok.mp done
  cases rule' <;> simp [membersOf] at object
  subst object
  simp only [Json.members] at bare ⊢
  split at done
  · next unnamed =>
    cases done
    exact Or.inl ⟨unnamed, rfl⟩
  · next scope named =>
    obtain ⟨style, styled, done⟩ := bind_eq_ok.mp done
    obtain ⟨colours, coloured, done⟩ := bind_eq_ok.mp done
    obtain ⟨back, -, done⟩ := bind_eq_ok.mp done
    obtain ⟨selection, -, done⟩ := bind_eq_ok.mp done
    obtain ⟨key, keyed, done⟩ := bind_eq_ok.mp done
    cases done
    refine Or.inr ⟨key, _, rfl, named, keyed, ?_, fun absent => ?_⟩
    · unfold styleOf at styled
      split at styled
      · cases styled
        simp
      · obtain ⟨words, -, styled⟩ := bind_eq_ok.mp styled
        cases styled
        simp
    · rw [foregroundOf, bare absent] at coloured
      cases coloured
      rfl

theorem foldlM_entries (special : List (String × Shade)) (rules : List Json) (entries : List (String × Entry)) :
    rules.foldlM (enterRule e special) entries = (rules.mapM (entryOfRule? e special)).map fun found =>
      found.reduceOption.foldl (fun entries new => put entries new.1 new.2) entries := by
  induction rules generalizing entries with
  | nil => rfl
  | cons rule rules ih =>
    rw [foldlM_cons, mapM_cons, enterRule]
    cases entryOfRule? e special rule with
    | error fault => rfl
    | ok found =>
      cases found with
      | none =>
        refine (ih entries).trans ?_
        cases rules.mapM (entryOfRule? e special) <;> rfl
      | some new =>
        refine (ih _).trans ?_
        cases rules.mapM (entryOfRule? e special) <;> rfl

theorem foldl_put_distinct (news entries : List (String × Entry)) (distinct : ((entries ++ news).map (·.1)).Nodup) :
    news.foldl (fun entries new => put entries new.1 new.2) entries = entries ++ news := by
  induction news generalizing entries with
  | nil => simp
  | cons new news ih =>
    have fresh : new.1 ∉ entries.map (·.1) := by
      rw [map_append, nodup_append] at distinct
      exact fun member => distinct.2.2 _ member _ (by simp) rfl
    rw [foldl_cons, Table.put_fresh fresh, ih _ (by simpa using distinct), append_assoc]
    rfl

theorem scopes_of_mapM {rules : List Json} {found : List (Option (String × Entry))}
    (texts : ∀ scope ∈ rules.filterMap scopeOf?, ∃ selector, scope = .text selector)
    (done : rules.mapM (m.rowOf e) = .ok found) :
    found.reduceOption.map (fun new => Json.text new.1) = rules.filterMap scopeOf? ∧
      ∀ new ∈ found.reduceOption, new.2.scope = .text new.1 ∧ ∀ word ∈ new.2.style, word = "bold" ∨ word = "italic" := by
  have each := mapM_eq_ok.mp done
  clear done
  induction each with
  | nil => simp
  | cons first _ ih =>
    rcases rowOf_cases first with ⟨unnamed, rfl⟩ | ⟨key, entry, rfl, named, keyed, words, -⟩
    · rw [filterMap_cons_none unnamed] at texts ⊢
      rw [reduceOption_cons_of_none]
      exact ih texts
    · rw [filterMap_cons_some named] at texts ⊢
      obtain ⟨selector, text⟩ := texts _ mem_cons_self
      obtain ⟨scopes, others⟩ := ih fun scope member => texts scope (mem_cons_of_mem _ member)
      have same : entry.scope = .text key := by
        rw [text] at keyed ⊢
        cases keyed
        rfl
      rw [reduceOption_cons_of_some, map_cons, scopes, forall_mem_cons, same]
      exact ⟨rfl, ⟨rfl, words⟩, others⟩

end Rules

section Built

variable {e : Edition} {name : String} {loaded : Loaded} {m : Matcher} {rules rules' : List Json}

/-- The values of the variables and the special colours that a document settles. -/
def Settles (e : Edition) (d : Document) (values : List (String × String)) (special : List (String × Shade)) :
    Prop :=
  ∃ table written options globals, entryOf d "variables" >>= membersOf = .ok table ∧
    evalVariables table = .ok (values, written) ∧ entryOf d e.globalsKey >>= membersOf = .ok options ∧
    evalGlobals values options = .ok globals ∧
    specialColours (globals.filterMap fun (key, value) =>
      value.text?.bind fun s => if Text.startsWith s "#" then some (key, s) else none) = .ok special

section

variable (built : ofLoaded e name loaded = .ok m)
  (listed : loaded.document.lookup "rules" = some (.list rules))
include built listed

theorem ofLoaded_ok :
    Settles e loaded.document m.values m.special ∧ m.kept = [] ∧ ∃ found, rules.mapM (m.rowOf e) = .ok found ∧
      m.entries = found.reduceOption.foldl (fun entries new => put entries new.1 new.2) [] := by
  obtain ⟨notVariables, notRules⟩ := globalsKey_apart e
  have listed' : entryOf loaded.document "rules" = .ok (.list rules) := by simp [entryOf, listed]
  obtain ⟨⟨document, values⟩, done, built⟩ := bind_eq_ok.mp built
  obtain ⟨value, first, done⟩ := bind_eq_ok.mp done
  obtain ⟨table, second, done⟩ := bind_eq_ok.mp done
  obtain ⟨⟨values', written⟩, third, done⟩ := bind_eq_ok.mp done
  simp only [entryOf_put, notVariables, notRules.symm, if_false, listed', bind_ok, String.reduceEq, partsOf] at done
  obtain ⟨value', fourth, done⟩ := bind_eq_ok.mp done
  obtain ⟨options, fifth, done⟩ := bind_eq_ok.mp done
  obtain ⟨globals, sixth, done⟩ := bind_eq_ok.mp done
  obtain ⟨evaluated, seventh, done⟩ := bind_eq_ok.mp done
  cases done
  simp only [entryOf_put, notRules, if_false, if_true, bind_ok, membersOf, partsOf] at built
  obtain ⟨special, eighth, built⟩ := bind_eq_ok.mp built
  obtain ⟨entries, entered, built⟩ := bind_eq_ok.mp built
  cases built
  rw [foldlM_entries] at entered
  obtain ⟨found, ninth, rfl⟩ := map_eq_ok.mp entered
  exact ⟨⟨table, written, options, globals, bind_eq_ok.mpr ⟨_, first, second⟩, third,
    bind_eq_ok.mpr ⟨_, fourth, fifth⟩, sixth, eighth⟩, rfl, found, mapM_bind_eq_ok.mpr ⟨_, seventh, ninth⟩, rfl⟩

/-- Other rules that can be entered make a matcher with the same values and special colours. -/
theorem exists_ofLoaded {found : List (Option (String × Entry))}
    (entered : rules'.mapM (m.rowOf e) = .ok found) :
    ∃ m', ofLoaded e name { loaded with document := put loaded.document "rules" (.list rules') } = .ok m' ∧
      m'.rowOf e = m.rowOf e ∧ m'.special = m.special := by
  obtain ⟨notVariables, notRules⟩ := globalsKey_apart e
  obtain ⟨⟨table, written, options, globals, first, second, third, fourth, fifth⟩, -⟩ := ofLoaded_ok built listed
  obtain ⟨value, first, first'⟩ := bind_eq_ok.mp first
  obtain ⟨value', third, third'⟩ := bind_eq_ok.mp third
  obtain ⟨evaluated, sixth, seventh⟩ := mapM_bind_eq_ok.mp entered
  have last := foldlM_entries (e := e) m.special evaluated []
  rw [seventh] at last
  simp only [ofLoaded, evalDocument, bind_assoc, pure_bind, entryOf_put, notVariables, notRules, notRules.symm,
    if_false, if_true, bind_ok, String.reduceEq, first, first', second, third, third', fourth]
  simp only [partsOf, membersOf, bind_ok, sixth, fifth]
  exact ⟨_, bind_eq_ok.mpr ⟨_, last, rfl⟩, rfl, rfl⟩

/-- Rules of distinct scopes are rated in their order. -/
theorem scored_of_distinct (distinct : DistinctScopes rules) (fit : String → String → Nat) (scope : String) :
    ∃ rated, Rated e (m.withFit fit) scope rules rated ∧ (m.withFit fit).scored scope = .ok rated ∧
      ∀ found ∈ rated, ∀ word ∈ found.1.style, word = "bold" ∨ word = "italic" := by
  obtain ⟨-, -, found, entered, entries⟩ := ofLoaded_ok built listed
  obtain ⟨scopes, named⟩ := scopes_of_mapM distinct.2 entered
  have keys : ((found.reduceOption.map (·.1)).map Json.text).Nodup := by
    rw [map_map]
    exact scopes ▸ distinct.1
  rw [foldl_put_distinct found.reduceOption [] keys.of_map, nil_append] at entries
  refine ⟨_, ⟨found, entered, rfl⟩, ?_, ?_⟩
  · change m.entries.mapM _ = _
    rw [entries]
    refine (mapM_congr fun new member => ?_).trans mapM_pure
    simp only [(named new member).1, textOf]
    rfl
  · intro rated member
    obtain ⟨new, inside, rfl⟩ := mem_map.mp member
    exact (named new inside).2

end

/-- The colours of a scope are those of the rules given for each of them, and else those of the scheme. -/
def Shows (special : List (String × Shade)) (m : Matcher) (scope : String) (fore back chosen : Option Entry) : Prop :=
  ∃ plain selected, (m.scopeColours scope false false).map (·.1) = .ok plain ∧
    (m.scopeColours scope true false).map (·.1) = .ok selected ∧
    plain.foreground = (fore.map (·.foreground)).getD (specialShade special "foreground") ∧
    plain.foregroundOrigin = (fore.map originOf).getD (specialOrigin "foreground") ∧
    plain.background = (back.map (·.background)).getD (specialShade special "background") ∧
    plain.backgroundOrigin = (back.map originOf).getD (specialOrigin "background") ∧
    let selection := (chosen.map (·.selection)).getD (specialShade special "selection_foreground")
    if selection.colour.isSome then selected.foreground = selection ∧
      selected.foregroundOrigin = (chosen.map originOf).getD (specialOrigin "selection_foreground")
    else selected.foreground = plain.foreground ∧ selected.foregroundOrigin = plain.foregroundOrigin

theorem select_foreground (m : Matcher) (c : ScopeColours) :
    if c.selection.colour.isSome then
      (m.select c).foreground = c.selection ∧ (m.select c).foregroundOrigin = c.selectionOrigin
    else (m.select c).foreground = c.foreground ∧ (m.select c).foregroundOrigin = c.foregroundOrigin := by
  unfold select
  cases c.selection.colour <;> cases (specialShade m.special "selection").colour <;> simp

theorem scopeColours_new {scope : String} {c : ScopeColours} (unkept : m.kept = [])
    (given : m.colours scope false = .ok c) (selected : Bool) :
    (m.scopeColours scope selected false).map (·.1) = .ok (if selected then m.select c else c) := by
  rw [scopeColours_of_unkept (by simp [unkept]), given]
  rfl

theorem shows_of_scored {scope : String} {rated : List (Entry × Nat)} (unkept : m.kept = [])
    (scored : m.scored scope = .ok rated) : Shows m.special m scope (best? hasPlainForeground rated)
      (best? (·.background.colour.isSome) rated) (best? (·.selection.colour.isSome) rated) := by
  obtain ⟨c, given⟩ : ∃ c, m.colours scope false = .ok c := by
    simp only [colours, scored]
    exact ⟨_, rfl⟩
  refine ⟨c, m.select c, scopeColours_new unkept given false, scopeColours_new unkept given true, ?_⟩
  have selected := select_foreground m c
  simp only [colours, scored] at given
  obtain rfl := ok.inj given
  exact ⟨rfl, rfl, rfl, rfl, selected⟩

theorem Rated.perm {scope : String} {rated : List (Entry × Nat)} (known : Rated e m scope rules rated)
    (perm : rules.Perm rules') {rated' : List (Entry × Nat)} (known' : Rated e m scope rules' rated') :
    rated.Perm rated' := by
  obtain ⟨found, entered, rfl⟩ := known
  obtain ⟨found', entered', rfl⟩ := known'
  obtain ⟨other, same, perm⟩ := mapM_perm perm entered
  obtain rfl := ok.inj (entered'.symm.trans same)
  exact (perm.filterMap id).map _

/-- A rule for a scope and one for a part of it, each with a colour and a style. -/
def nestedRules : List Json :=
  [.object [("scope", .text "a"), ("foreground", .text "#102030"), ("font_style", .text "bold")],
   .object [("scope", .text "a.b"), ("background", .text "#ff0000"), ("font_style", .text "italic")]]

def nestedScheme (rules : List Json) : Loaded :=
  { document := [("variables", .object []), ("globals", .object []), ("rules", .list rules)], converted := false }

theorem nested_distinct : DistinctScopes nestedRules :=
  ⟨by simp [nestedRules, scopeOf?, present?, Json.members], by
    simp [nestedRules, scopeOf?, present?, Json.members]⟩

def nestedMatcher : Matcher :=
  (ofLoaded {} "Nested" (nestedScheme nestedRules)).toOption.get (by decide +kernel)

theorem nested_built : ∃ m, ofLoaded {} "Nested" (nestedScheme nestedRules) = .ok m := by
  have built : (ofLoaded {} "Nested" (nestedScheme nestedRules)).toOption = some nestedMatcher :=
    (Option.some_get _).symm
  cases found : ofLoaded {} "Nested" (nestedScheme nestedRules) with
  | ok m => exact ⟨m, rfl⟩
  | error fault => simp [found, Except.toOption] at built

/-- The style of a scope is that of the first best rule exactly if no rule that outdid all before it has a style that the
best rule does not have. -/
theorem style_of_best_rule_iff (built : ofLoaded e name loaded = .ok m)
    (listed : loaded.document.lookup "rules" = some (.list rules)) (distinct : DistinctScopes rules)
    (fit : String → String → Nat) (scope : String) :
    ∃ (rated : _) (best : _) (c : ScopeColours), Rated e (m.withFit fit) scope rules rated ∧
      FirstBest (fun _ => true) rated best ∧ ((m.withFit fit).scopeColours scope false false).map (·.1) = .ok c ∧
      ((∀ word, word ∈ c.style ↔ ∃ top, best.1 = some top ∧ word ∈ top.style) ↔
        ∀ entry, Leads rated 0 entry → ∀ word ∈ entry.style, ∃ top, best.1 = some top ∧ word ∈ top.style) := by
  obtain ⟨rated, known, scored, words⟩ := scored_of_distinct built listed distinct fit scope
  obtain ⟨score, best⟩ := firstBest_best? (fun _ => true) rated
  obtain ⟨c, given⟩ : ∃ c, (m.withFit fit).colours scope false = .ok c := by
    simp only [colours, scored]
    exact ⟨_, rfl⟩
  refine ⟨rated, _, c, known, best, scopeColours_new (m := m.withFit fit) (ofLoaded_ok built listed).2.1 given false, ?_⟩
  have style (word : String) : word ∈ c.style ↔ ∃ entry, Leads rated 0 entry ∧ word ∈ entry.style := by
    simp only [colours, scored] at given
    obtain rfl := ok.inj given
    simp only [mem_filter, any_eq_true, mem_risers, contains_iff_mem, mem_cons, not_mem_nil,
      or_false]
    refine and_iff_right_of_imp ?_
    rintro ⟨entry, ⟨before, score, after, rfl, -⟩, member⟩
    exact words (entry, score) (by simp) word member
  simp only [style]
  constructor
  · exact fun same entry leads word member => (same word).mp ⟨entry, leads, member⟩
  · intro covered word
    constructor
    · rintro ⟨entry, leads, member⟩
      exact covered entry leads word member
    · rintro ⟨top, found, member⟩
      exact ⟨top, FirstBest.leads (found ▸ best), member⟩

theorem style_of_best_rule_iff_nested :
    ∃ m, ofLoaded {} "Nested" (nestedScheme nestedRules) = .ok m ∧ DistinctScopes nestedRules ∧
      ∃ rated best, Rated {} (m.withFit score) "a.b" nestedRules rated ∧ FirstBest (fun _ => true) rated best := by
  obtain ⟨m, built⟩ := nested_built
  obtain ⟨rated, best, -, known, first, -⟩ := style_of_best_rule_iff built rfl nested_distinct score "a.b"
  exact ⟨m, built, nested_distinct, rated, best, known, first⟩

/-- The best rule is italic, and the text is bold too if another rule that fits stands before it. -/
theorem style_kept_from_outdone_rule :
    (ofLoaded {} "Nested" (nestedScheme nestedRules)).toOption.bind (fun m =>
        (m.scored "a.b").toOption.bind fun rated => (m.scopeColours "a.b" false false).toOption.map fun found =>
          ((best? (fun _ => true) rated).map (·.style), found.1.style)) =
      some (some ["italic"], ["bold", "italic"]) ∧
    (ofLoaded {} "Nested" (nestedScheme nestedRules.reverse)).toOption.bind (fun m =>
        (m.scopeColours "a.b" false false).toOption.map (·.1.style)) = some ["italic"] := by
  decide +kernel

end Built

end Matcher

end VhdlWorkbench.Scheme

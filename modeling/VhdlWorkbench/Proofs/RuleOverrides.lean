import VhdlWorkbench.Proofs.BestRules

/-!
A rule without a foreground that is added behind the others: it takes the place of a rule for the same scope.
-/

namespace VhdlWorkbench.Scheme.Matcher

open List Table

variable {admits : Entry → Bool} {rated : List (Entry × Nat)} {best : Option Entry × Nat}
  {entries : List (String × Entry)} {key : String} {new : Entry} {fit : String → Nat}

theorem FirstBest.unique {best' : Option Entry × Nat} (known : FirstBest admits rated best)
    (known' : FirstBest admits rated best') : best.1 = best'.1 := by
  have most := known.most
  have most' := known'.most
  cases known with
  | nowhere unfit =>
    cases known' with
    | nowhere => rfl
    | here place admitted fits =>
      have none := unfit _ (place ▸ mem_append_right _ mem_cons_self) admitted
      exact absurd none (Nat.ne_of_gt fits)
  | here place admitted fits better =>
    have less := most' _ (place ▸ mem_append_right _ mem_cons_self) admitted
    cases known' with
    | nowhere => exact absurd less (Nat.not_le_of_lt fits)
    | here place' admitted' _ better' =>
      have more := most _ (place' ▸ mem_append_right _ mem_cons_self) admitted'
      rcases append_eq_append_iff.mp (place.symm.trans place') with ⟨mid, front, back⟩ | ⟨mid, front, back⟩
      · cases mid with
        | nil => exact congrArg (some ·.1) (cons.inj back).1
        | cons found mid =>
          obtain ⟨rfl, -⟩ := cons.inj back
          have outdone := better' _ (front ▸ mem_append_right _ mem_cons_self) admitted
          exact absurd outdone (Nat.not_lt_of_le more)
      · cases mid with
        | nil => exact congrArg (some ·.1) (cons.inj back).1.symm
        | cons found mid =>
          obtain ⟨rfl, -⟩ := cons.inj back
          have outdone := better _ (front ▸ mem_append_right _ mem_cons_self) admitted'
          exact absurd outdone (Nat.not_lt_of_le less)

theorem best?_filter (admits : Entry → Bool) (rated : List (Entry × Nat)) :
    best? admits (rated.filter (admits ·.1)) = best? admits rated := by
  unfold best?
  rw [foldl_filter]
  congr 3
  funext best found
  by_cases admitted : admits found.1 = true <;> simp [admitted]

/-- The entries of a table, each with how well its key fits. -/
def rate (fit : String → Nat) (entries : List (String × Entry)) : List (Entry × Nat) :=
  entries.map fun (key, entry) => (entry, fit key)

/-- An entry that is not admitted takes the old entry of its key away. -/
theorem best?_put (bare : admits new = false) :
    best? admits (rate fit (put entries key new)) = best? admits (rate fit (erase entries key)) := by
  rw [← best?_filter, ← best?_filter admits (rate fit (erase entries key))]
  congr 1
  unfold put
  split
  · clear * - bare
    induction entries with
    | nil => rfl
    | cons entry entries ih =>
      by_cases same : entry.1 == key <;> simp_all [rate, erase, filter_cons]
  · next absent =>
    have others : erase entries key = entries := filter_eq_self.mpr (by grind)
    simp [others, rate, bare]

theorem FirstBest.erase (key : String) (known : FirstBest admits (rate fit entries) best)
    (other : ∀ top, best.1 = some top → (key, top) ∉ entries) :
    FirstBest admits (rate fit (Table.erase entries key)) best := by
  have kept {entries : List (String × Entry)} : rate fit (Table.erase entries key) ⊆ rate fit entries :=
    map_subset _ (filter_sublist.subset)
  cases known with
  | nowhere unfit => exact .nowhere fun found member => unfit found (kept member)
  | here place admitted fits better atLeast =>
    obtain ⟨before, rest, rfl, rfl, behind⟩ := map_eq_append_iff.mp place
    obtain ⟨⟨own, top⟩, after, rfl, head, rfl⟩ := map_eq_cons_iff.mp behind
    obtain ⟨rfl, rfl⟩ := Prod.mk.inj head
    have apart : own ≠ key := by
      rintro rfl
      exact other top rfl (by simp)
    have place : rate fit (Table.erase (before ++ (own, top) :: after) key) =
        rate fit (Table.erase before key) ++ (top, fit own) :: rate fit (Table.erase after key) := by
      simp [rate, Table.erase, apart]
    exact .here place admitted fits (fun found member => better found (kept member)) fun found member =>
      atLeast found (kept member)

section Built

variable {e : Edition} {name : String} {loaded : Loaded} {m : Matcher} {rules : List Json} {rule : Json}

theorem mem_foldl_put {news : List (String × Entry)} {found : String × Entry}
    (member : found ∈ news.foldl (fun entries new => put entries new.1 new.2) entries) :
    found ∈ entries ∨ found ∈ news := by
  induction news generalizing entries with
  | nil => exact Or.inl member
  | cons new news ih =>
    rcases ih member with before | later
    · rcases mem_put.mp before with rfl | ⟨inside, -⟩
      · exact Or.inr mem_cons_self
      · exact Or.inl inside
    · exact Or.inr (mem_cons_of_mem _ later)

theorem scored_of_named (named : ∀ new ∈ m.entries, new.2.scope = .text new.1) (fit : String → String → Nat)
    (scope : String) : (m.withFit fit).scored scope = .ok (rate (fit scope) m.entries) := by
  refine (mapM_congr fun new member => ?_).trans mapM_pure
  simp only [named new member, textOf]
  rfl

/-- A rule for a selector that gives no foreground. -/
structure GivesNoForeground (rule : Json) (selector : String) : Prop where
  aimed : scopeOf? rule = some (.text selector)
  bare : present? rule.members "foreground" = none
  proper : selector ≠ "foreground"

/-- A rule without a foreground that is added behind the others leaves the foreground of a scope as it is exactly if
the foreground does not come from a rule for the same selector. -/
theorem foreground_kept_iff {selector : String} {found : Option (String × Entry)}
    (built : ofLoaded e name loaded = .ok m) (listed : loaded.document.lookup "rules" = some (.list rules))
    (texts : ∀ scope ∈ rules.filterMap scopeOf?, ∃ selector, scope = .text selector)
    (entered : m.rowOf e rule = .ok found) (shades : GivesNoForeground rule selector) :
    ∃ m', ofLoaded e name
        { loaded with document := put loaded.document "rules" (.list (rules ++ [rule])) } = .ok m' ∧
      ∀ fit scope, ∃ c c', ((m.withFit fit).scopeColours scope false false).map (·.1) = .ok c ∧
        ((m'.withFit fit).scopeColours scope false false).map (·.1) = .ok c' ∧
        (c'.foreground = c.foreground ∧ c'.foregroundOrigin.scope = c.foregroundOrigin.scope ↔
          c.foregroundOrigin.scope ≠ .text selector) := by
  rcases rowOf_cases entered with ⟨none, -⟩ | ⟨key, entry, rfl, own, keyed, -, plain⟩
  · exact absurd (shades.aimed.symm.trans none) (by simp)
  have text : entry.scope = .text selector := Option.some.inj (own.symm.trans shades.aimed)
  rw [text] at keyed
  obtain rfl := Except.ok.inj keyed
  obtain ⟨-, unkept, founds, rows, entries⟩ := ofLoaded_ok built listed
  have rows' : (rules ++ [rule]).mapM (m.rowOf e) = .ok (founds ++ [some (selector, entry)]) := by
    rw [mapM_append, rows, bind_ok, mapM_cons, entered]
    rfl
  obtain ⟨m', built', same, special⟩ := exists_ofLoaded built listed rows'
  have listed' : (put loaded.document "rules" (.list (rules ++ [rule]))).lookup "rules" =
      some (.list (rules ++ [rule])) := by simp [lookup_put]
  obtain ⟨-, unkept', founds', again, entries'⟩ := ofLoaded_ok built' listed'
  rw [same, rows'] at again
  obtain rfl := Except.ok.inj again
  have put : m'.entries = put m.entries selector entry := by
    rw [entries', entries, reduceOption_append, foldl_append]
    rfl
  have named : ∀ new ∈ m.entries, new.2.scope = .text new.1 := fun new member =>
    ((scopes_of_mapM texts rows).2 new ((mem_foldl_put (entries ▸ member)).resolve_left not_mem_nil)).1
  have named' : ∀ new ∈ m'.entries, new.2.scope = .text new.1 := by
    intro new member
    rcases mem_put.mp (put ▸ member) with rfl | ⟨inside, -⟩
    · exact text
    · exact named new inside
  refine ⟨m', built', fun fit scope => ?_⟩
  obtain ⟨c, -, given, -, fore, origin, -⟩ :=
    shows_of_scored (m := m.withFit fit) unkept (scored_of_named named fit scope)
  obtain ⟨c', -, given', -, fore', origin', -⟩ :=
    shows_of_scored (m := m'.withFit fit) unkept' (scored_of_named named' fit scope)
  refine ⟨c, c', given, given', ?_⟩
  rw [put, best?_put (plain shades.bare)] at fore' origin'
  obtain ⟨_, best⟩ := firstBest_best? hasPlainForeground (rate (fit scope) m.entries)
  obtain ⟨_, best'⟩ := firstBest_best? hasPlainForeground (rate (fit scope) (erase m.entries selector))
  generalize best? hasPlainForeground (rate (fit scope) m.entries) = top at fore origin best
  generalize best? hasPlainForeground (rate (fit scope) (erase m.entries selector)) = top' at fore' origin' best'
  constructor
  · rintro ⟨-, same⟩
    rw [← same, origin']
    cases top' with
    | none => simpa [specialOrigin] using Ne.symm shades.proper
    | some top' =>
      obtain ⟨⟨other, _⟩, inside, ⟨⟩⟩ := mem_map.mp best'.found.1
      obtain ⟨inside, apart⟩ := mem_filter.mp inside
      simpa [originOf, show top'.scope = .text other from named _ inside] using apart
  · intro other
    have kept := best.erase selector fun entry chosen member => by
      obtain rfl : top = some entry := chosen
      rw [origin] at other
      exact other (named _ member)
    obtain rfl : top' = top := best'.unique kept
    exact ⟨by rw [fore, fore', withFit, withFit, special], by rw [origin, origin']⟩

def shadedRule : Json :=
  .object [("scope", .text "a"), ("background", .text "#00ff00")]

theorem foreground_kept_iff_shaded :
    ∃ m found m', ofLoaded {} "Nested" (nestedScheme nestedRules) = .ok m ∧
      m.rowOf {} shadedRule = .ok found ∧
      ofLoaded {} "Nested" (nestedScheme (nestedRules ++ [shadedRule])) = .ok m' ∧
      ∃ c c', ((m.withFit score).scopeColours "a.b" false false).map (·.1) = .ok c ∧
        ((m'.withFit score).scopeColours "a.b" false false).map (·.1) = .ok c' ∧
        (c'.foreground = c.foreground ∧ c'.foregroundOrigin.scope = c.foregroundOrigin.scope ↔
          c.foregroundOrigin.scope ≠ .text "a") := by
  obtain ⟨m, built⟩ := nested_built
  have rows : (ofLoaded {} "Nested" (nestedScheme nestedRules)).toOption.all
      (fun m => (m.rowOf {} shadedRule).toBool) = true := by decide +kernel
  rw [built] at rows
  cases row : m.rowOf {} shadedRule with
  | error fault => simp [Except.toOption, row, Except.toBool] at rows
  | ok found =>
    obtain ⟨m', built', kept⟩ := foreground_kept_iff built rfl nested_distinct.2 row ⟨rfl, rfl, by decide⟩
    exact ⟨m, found, m', built, row, built', kept score "a.b"⟩

/-- A background for a scope takes its foreground away. -/
theorem foreground_lost_to_background :
    (ofLoaded {} "Nested" (nestedScheme nestedRules)).toOption.bind (fun m =>
        (m.scopeColours "a" false false).toOption.map (·.1.foreground.colour)) = some (some "#102030") ∧
    (ofLoaded {} "Nested" (nestedScheme (nestedRules ++ [shadedRule]))).toOption.bind (fun m =>
        (m.scopeColours "a" false false).toOption.map (·.1.foreground.colour)) = some (some "#000000") := by
  decide +kernel

end Built

end VhdlWorkbench.Scheme.Matcher

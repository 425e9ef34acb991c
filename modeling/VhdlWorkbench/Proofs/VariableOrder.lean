import Mathlib.Data.Finset.Card
import Mathlib.Logic.Relation
import VhdlWorkbench.Proofs.Outcomes
import VhdlWorkbench.Proofs.Scan
import VhdlWorkbench.Proofs.Tables
import VhdlWorkbench.Scheme.Matcher

/-!
The order of the variables of a colour scheme does not matter if no variable leads back to itself.
-/

namespace VhdlWorkbench.Colour

open Pattern Relation List Option Text

def Form.variable? : Form → Option String
  | .ofVariable name => some name
  | _ => none

def Form.references : Form → List String
  | .ofVariable name => [name]
  | .mixture text =>
    (ingredientForm.matches_ text).filterMap fun m => (Form.ofMatch? m).bind Form.variable?
  | _ => []

/-- The text of one variable names the other. -/
def Refers (table : List (String × Json)) (name other : String) : Prop :=
  ∃ text form, table.lookup name = some (.text text) ∧ Form.ofText? (trim text) = some form ∧
    other ∈ form.references

/-- No variable leads back to itself. -/
def Acyclic (table : List (String × Json)) : Prop :=
  ∀ name, ¬TransGen (Refers table) name name

/-- A value as it is written into a text. -/
def shown (value : Except Fault (Option String)) : Except Fault String := do
  return (← value).getD ""

theorem shown_ok (value : Option String) : shown (.ok value) = .ok (value.getD "") :=
  rfl

theorem value?_eq (vars : Variables) (text : String) : value? vars text =
      match Form.ofText? text with
      | none => .ok none
      | some form => evalForm vars (2 * vars.written.length + 3) form := by
  unfold value? Form.ofText?
  cases colourForm.matchStart? text with
  | none => rfl
  | some m =>
    unfold valueOf
    rfl

section Rank

variable {table : List (String × Json)} {name other : String}

open Classical in
/-- How many variables of the table one can come to from a name. -/
noncomputable def rank (table : List (String × Json)) (name : String) : Nat :=
  ((table.map (·.1)).toFinset.filter (ReflTransGen (Refers table) name)).card

theorem rank_le (table : List (String × Json)) (name : String) : rank table name ≤ table.length := by
  classical
  have keys : (table.map (·.1)).toFinset.card ≤ table.length := by
    simpa using toFinset_card_le (table.map (·.1))
  exact (Finset.card_filter_le _ _).trans keys

theorem Refers.key (refers : Refers table name other) : name ∈ table.map (·.1) := by
  obtain ⟨text, form, found, -, -⟩ := refers
  rw [← Table.lookup_isSome_iff, found]
  rfl

theorem rank_lt (acyclic : Acyclic table) (refers : Refers table name other) :
    rank table other < rank table name := by
  classical
  have fewer : (table.map (·.1)).toFinset.filter (ReflTransGen (Refers table) other) ⊆
      (table.map (·.1)).toFinset.filter (ReflTransGen (Refers table) name) := by
    intro key member
    rw [Finset.mem_filter] at member ⊢
    exact ⟨member.1, ReflTransGen.head refers member.2⟩
  have itself : name ∈ (table.map (·.1)).toFinset.filter (ReflTransGen (Refers table) name) := by
    rw [Finset.mem_filter, List.mem_toFinset]
    exact ⟨refers.key, ReflTransGen.refl⟩
  have gone : name ∉ (table.map (·.1)).toFinset.filter (ReflTransGen (Refers table) other) := by
    intro member
    have back := (Finset.mem_filter.mp member).2
    exact acyclic name (TransGen.head' refers back)
  apply Finset.card_lt_card
  exact (Finset.ssubset_iff_of_subset fewer).mpr ⟨name, itself, gone⟩

end Rank

section Ingredients

theorem named?_eq_none {r : Regex} {text group : String} {m : Match}
    (absent : r.names.lookup group = none) (member : m ∈ r.matches_ text) : m.named? group = none := by
  obtain ⟨place, nonempty, matched⟩ := Regex.exists_matchAt_of_mem member
  obtain ⟨t, -, rfl⟩ := Regex.matchAt_reaches matched
  rw [Match.named?, absent, bind_none]

theorem ingredientForm_names : ingredientForm.names.lookup "color" = none := by
  rw [ingredientForm]
  rfl

theorem ofMatch?_ingredient {text : String} {m : Match} (member : m ∈ ingredientForm.matches_ text)
    (inner : String) : Form.ofMatch? m ≠ some (.mixture inner) := by
  intro found
  obtain ⟨⟨group, form⟩, listed, made⟩ := exists_of_findSome?_eq_some found
  obtain ⟨content, named, made⟩ := map_eq_some_iff.mp made
  have others : ∀ entry ∈ formGroups, entry.1 ≠ "color" → ∀ content, entry.2 content ≠ .mixture inner := by
    simp [formGroups]
  by_cases mixture : group = "color"
  · rw [mixture, named?_eq_none ingredientForm_names member] at named
    exact absurd named (some_ne_none content).symm
  · exact others (group, form) listed mixture content made

end Ingredients

section Fuel

variable {table : List (String × Json)} {fuel fuel' : Nat} {form : Form}

/-- The fuel suffices for a form. Each variable takes one step for itself and at most one for a mixture. -/
def Enough (table : List (String × Json)) (fuel : Nat) : Form → Prop
  | .ofVariable name => 2 * rank table name + 3 ≤ fuel
  | .mixture text => 2 ≤ fuel ∧ ∀ name ∈ (Form.mixture text).references, 2 * rank table name + 4 ≤ fuel
  | _ => 1 ≤ fuel

theorem Enough.pos (enough : Enough table fuel form) : ∃ left, fuel = left + 1 := by
  refine Nat.exists_eq_add_one_of_ne_zero fun none => ?_
  subst none
  cases form <;> simp [Enough] at enough

theorem enough_of_text (acyclic : Acyclic table) {name text : String}
    (found : table.lookup name = some (.text text)) (read : Form.ofText? (trim text) = some form)
    (bound : 2 * rank table name + 2 ≤ fuel) : Enough table fuel form := by
  have lower {other : String} (member : other ∈ form.references) : rank table other < rank table name :=
    rank_lt acyclic ⟨text, form, found, read, member⟩
  cases form with
  | ofVariable other =>
    have := lower (mem_singleton_self other)
    simp only [Enough]
    omega
  | mixture inner =>
    refine ⟨by omega, fun other member => ?_⟩
    have := lower member
    omega
  | short | long | rgb | rgba | hsl | hsla | ofName =>
    simp only [Enough]
    omega

theorem enough_of_ingredient {text : String} {m : Match}
    (enough : Enough table (fuel + 1) (.mixture text)) (member : m ∈ ingredientForm.matches_ text)
    (read : Form.ofMatch? m = some form) : Enough table fuel form := by
  obtain ⟨two, bound⟩ := enough
  cases form with
  | ofVariable name =>
    have reference : name ∈ (Form.mixture text).references := by
      rw [Form.references, mem_filterMap]
      exact ⟨m, member, by rw [read]; rfl⟩
    have := bound name reference
    simp only [Enough]
    omega
  | mixture inner => exact absurd read (ofMatch?_ingredient member inner)
  | short | long | rgb | rgba | hsl | hsla | ofName =>
    simp only [Enough]
    omega

end Fuel

theorem replaceByM_congr {r : Regex} {text : String} {f g : Match → Except Fault String}
    (same : ∀ m ∈ r.matches_ text, f m = g m) : r.replaceByM f text = r.replaceByM g text := by
  simp only [Regex.replaceByM, mapM_congr same]

theorem mixtureValue_congr {value value' : Form → Except Fault (Option String)} {text : String}
    (same : ∀ m ∈ ingredientForm.matches_ text, ∀ form, Form.ofMatch? m = some form →
      shown (value form) = shown (value' form)) : mixtureValue value text = mixtureValue value' text := by
  unfold mixtureValue
  generalize ingredientForm = r at *
  congr 1
  apply replaceByM_congr
  intro m member
  cases read : Form.ofMatch? m with
  | none => rfl
  | some form => exact same m member form read

/-- The environment stands for the table: what it knows is what the table gives, and it has the table's text
for the rest. -/
def Follows (table : List (String × Json)) (vars : Variables) : Prop :=
  ∀ name,
    vars.known.lookup name = none ∧ vars.written.lookup name = table.lookup name ∨
    ∃ value, vars.known.lookup name = some value ∧ ∀ fuel, 2 * rank table name + 3 ≤ fuel →
      shown (evalForm { written := table } fuel (.ofVariable name)) = .ok (value.getD "")

theorem follows_of_lookup {table written : List (String × Json)}
    (same : ∀ name, written.lookup name = table.lookup name) : Follows table { written } :=
  fun name => Or.inl ⟨rfl, same name⟩

theorem evalForm_unknown {vars : Variables} {fuel : Nat} {name : String}
    (unknown : vars.known.lookup name = none) : evalForm vars (fuel + 1) (.ofVariable name) =
      match vars.written.lookup name with
      | none => .error (.noEntry (quoted name))
      | some (.text text) =>
        match Form.ofText? (trim text) with
        | none => .ok none
        | some form => evalForm vars fuel form
      | some _ => .error .noMember := by
  simp only [evalForm, unknown]
  rfl

/-- With enough fuel, an environment that stands for a table shows what the table gives. -/
theorem shown_evalForm {table : List (String × Json)} {vars : Variables} {fuel fuel' : Nat}
    {form : Form} (acyclic : Acyclic table) (follows : Follows table vars)
    (enough : Enough table fuel form) (enough' : Enough table fuel' form) :
    shown (evalForm vars fuel form) = shown (evalForm { written := table } fuel' form) := by
  induction fuel generalizing form fuel' with
  | zero =>
    obtain ⟨left, positive⟩ := enough.pos
    exact absurd positive (by omega)
  | succ fuel ih =>
    obtain ⟨fuel', rfl⟩ := enough'.pos
    cases form with
    | ofVariable name =>
      rcases follows name with ⟨unknown, same⟩ | ⟨value, known, given⟩
      · rw [evalForm_unknown unknown, evalForm_unknown rfl, same]
        cases found : table.lookup name with
        | none => rfl
        | some json =>
          cases json with
          | text text =>
            cases read : Form.ofText? (trim text) with
            | none => simp only [read, shown_ok]
            | some form =>
              simp only [Enough] at enough enough'
              simp only [read]
              apply ih
              · exact enough_of_text acyclic found read (by omega)
              · exact enough_of_text acyclic found read (by omega)
          | _ => rfl
      · rw [given _ enough', ← shown_ok]
        simp only [evalForm, known]
        rfl
    | mixture text =>
      have value : mixtureValue (evalForm vars fuel) text =
          mixtureValue (evalForm { written := table } fuel') text := by
        apply mixtureValue_congr
        intro m member form read
        exact ih (enough_of_ingredient enough member read) (enough_of_ingredient enough' member read)
      simp only [evalForm, value]
    | short | long | rgb | rgba | hsl | hsla | ofName => rfl

theorem evalForm_congr {vars vars' : Variables}
    (known : ∀ name, vars.known.lookup name = vars'.known.lookup name)
    (written : ∀ name, vars.written.lookup name = vars'.written.lookup name) (fuel : Nat) (form : Form) :
    evalForm vars fuel form = evalForm vars' fuel form := by
  induction fuel generalizing form with
  | zero => rfl
  | succ fuel ih =>
    cases form with
    | ofVariable name => simp only [evalForm, known, written, ih]
    | mixture text => simp only [evalForm, funext ih]
    | short | long | rgb | rgba | hsl | hsla | ofName => rfl

end VhdlWorkbench.Colour

namespace VhdlWorkbench.Scheme

open Colour Relation List

variable {value : Json} {values : List (String × String)}

section Assign

variable {table : List (String × Json)} {known : List (String × String)} {written : List (String × Json)}

/-- The colour of a variable's text by the table alone. -/
def meaning (table : List (String × Json)) (value : Json) : Except Fault String := do
  shown (value? { written := table } (Text.trim (← textOf value)))

/-- The variables as an environment, in which every known one has a value. -/
def environment (known : List (String × String)) (written : List (String × Json)) : Variables where
  known := known.map fun (name, value) => (name, some value)
  written := written

theorem lookup_environment (known : List (String × String)) (written : List (String × Json))
    (name : String) : (environment known written).known.lookup name = (known.lookup name).map some := by
  unfold environment
  induction known with
  | nil => rfl
  | cons entry known ih =>
    rw [map_cons, lookup_cons, lookup_cons, ih]
    cases name == entry.1 <;> rfl

def assign (state : List (String × String) × List (String × Json)) (entry : String × Json) :
    Except Fault (List (String × String) × List (String × Json)) := do
  let colour ← shown (value? (environment state.1 state.2) (Text.trim (← textOf entry.2)))
  return (Table.put state.1 entry.1 colour, Table.put state.2 entry.1 (.text colour))

theorem evalVariables_eq (table : List (String × Json)) :
    evalVariables table = table.foldlM assign ([], table) := by
  have step : (fun (state : List (String × String) × List (String × Json)) (entry : String × Json) => do
      let text := Text.trim (← textOf entry.2)
      let value := (← value? (environment state.1 state.2) text).getD ""
      return (Table.put state.1 entry.1 value, Table.put state.2 entry.1 (.text value))) = assign := by
    funext state entry
    simp only [assign, shown, bind_assoc, pure_bind]
  rw [← step]
  rfl

/-- What holds while the variables are evaluated. -/
structure Progress (table : List (String × Json)) (known : List (String × String))
    (written : List (String × Json)) : Prop where
  follows : Follows table (environment known written)
  length_le : table.length ≤ written.length

theorem Progress.start (table : List (String × Json)) : Progress table [] table :=
  ⟨follows_of_lookup fun _ => rfl, Nat.le_refl _⟩

-- The colour of a listed text does not depend on what is already known.
theorem Progress.shown_value (progress : Progress table known written) (acyclic : Acyclic table)
    {name text : String} (listed : table.lookup name = some (.text text)) :
    shown (value? (environment known written) (Text.trim text)) = meaning table (.text text) := by
  have short := rank_le table name
  have long := progress.length_le
  change _ = shown (value? { written := table } (Text.trim text))
  rw [value?_eq, value?_eq]
  cases read : Form.ofText? (Text.trim text) with
  | none => rfl
  | some form =>
    apply shown_evalForm acyclic progress.follows
    · apply enough_of_text acyclic listed read
      simp only [environment]
      omega
    · apply enough_of_text acyclic listed read
      simp only
      omega

theorem Progress.assign_eq (progress : Progress table known written) (acyclic : Acyclic table)
    {name : String} (listed : table.lookup name = some value) : assign (known, written) (name, value) =
      meaning table value >>= fun colour =>
        .ok (Table.put known name colour, Table.put written name (.text colour)) := by
  cases value with
  | text text =>
    have colour := progress.shown_value acyclic listed
    rw [← colour]
    rfl
  | _ => rfl

theorem shown_of_meaning (acyclic : Acyclic table) {name colour : String}
    (listed : table.lookup name = some value) (given : meaning table value = .ok colour) {fuel : Nat}
    (enough : 2 * rank table name + 3 ≤ fuel) :
    shown (evalForm { written := table } fuel (.ofVariable name)) = .ok colour := by
  obtain ⟨fuel, rfl⟩ : ∃ left, fuel = left + 1 := ⟨fuel - 1, by omega⟩
  cases value with
  | text text =>
    have short := rank_le table name
    change shown (value? { written := table } (Text.trim text)) = .ok colour at given
    rw [value?_eq] at given
    rw [evalForm_unknown rfl, listed]
    cases read : Form.ofText? (Text.trim text) with
    | none =>
      rw [read] at given
      simpa only [read] using given
    | some form =>
      rw [read] at given
      simp only [read] at given ⊢
      rw [← given]
      apply shown_evalForm acyclic (follows_of_lookup fun _ => rfl)
      · exact enough_of_text acyclic listed read (by omega)
      · exact enough_of_text acyclic listed read (by omega)
  | _ => exact absurd given (by simp [meaning, textOf, bind, Except.bind])

theorem Progress.assign (progress : Progress table known written) (acyclic : Acyclic table)
    {name colour : String} (listed : table.lookup name = some value) (given : meaning table value = .ok colour) :
    Progress table (Table.put known name colour) (Table.put written name (.text colour)) := by
  refine ⟨fun other => ?_, progress.length_le.trans (Table.length_le_put written name _)⟩
  rw [lookup_environment, Table.lookup_put]
  by_cases same : other = name
  · subst same
    right
    refine ⟨some colour, by simp, ?_⟩
    intro fuel enough
    exact shown_of_meaning acyclic listed given enough
  · have kept := progress.follows other
    rw [lookup_environment] at kept
    have untouched : (environment (Table.put known name colour)
        (Table.put written name (.text colour))).written.lookup other = written.lookup other := by
      simp only [environment, Table.lookup_put, beq_eq_false_iff_ne.mpr same, Bool.false_eq_true,
        ↓reduceIte]
    rw [beq_eq_false_iff_ne.mpr same, untouched]
    exact kept

def coloured (table : List (String × Json)) (entry : String × Json) : Except Fault (String × String) :=
  (meaning table entry.2).map (Prod.mk entry.1)

theorem foldlM_assign (acyclic : Acyclic table) {rest : List (String × Json)}
    (listed : ∀ entry ∈ rest, table.lookup entry.1 = some entry.2) (keys : (rest.map (·.1)).Nodup)
    (fresh : ∀ entry ∈ rest, entry.1 ∉ known.map (·.1)) (progress : Progress table known written) :
    (rest.foldlM assign (known, written)).map (·.1) = (rest.mapM (coloured table)).map (known ++ ·) := by
  induction rest generalizing known written with
  | nil => exact congrArg Except.ok (append_nil known).symm
  | cons entry rest ih =>
    obtain ⟨name, value⟩ := entry
    have first := listed (name, value) mem_cons_self
    obtain ⟨apart, keys⟩ := nodup_cons.mp (map_cons ▸ keys)
    rw [foldlM_cons, mapM_cons, progress.assign_eq acyclic first, coloured]
    cases given : meaning table value with
    | error fault => rfl
    | ok colour =>
      have added := Table.put_fresh (fresh _ mem_cons_self) colour
      have next := progress.assign acyclic first given
      have later := ih (fun entry member => listed entry (mem_cons_of_mem _ member)) keys
        (fun entry member => by
          rw [added, map_append, mem_append]
          rintro (old | new)
          · exact fresh entry (mem_cons_of_mem _ member) old
          · rw [map_singleton, mem_singleton] at new
            exact apart (mem_map.mpr ⟨entry, member, new⟩)) next
      change (rest.foldlM assign (_, _)).map (·.1) = _
      rw [later, added]
      cases rest.mapM (coloured table) with
      | error fault => rfl
      | ok colours => exact congrArg Except.ok (append_assoc known [(name, colour)] colours)

/-- The variables are evaluated to their colours by the table alone. -/
theorem evalVariables_map (acyclic : Acyclic table) (keys : (table.map (·.1)).Nodup) :
    (evalVariables table).map (·.1) = table.mapM (coloured table) := by
  have whole := foldlM_assign acyclic (fun entry member => Table.lookup_of_mem keys member) keys
    (fun _ _ => not_mem_nil) (Progress.start table)
  rw [evalVariables_eq, whole]
  cases table.mapM (coloured table) <;> rfl

end Assign

section Order

variable {table table' : List (String × Json)}

theorem acyclic_perm (acyclic : Acyclic table) (keys : (table.map (·.1)).Nodup)
    (perm : table.Perm table') : Acyclic table' := by
  have same : Refers table' = Refers table := by
    funext name other
    simp only [Refers, Table.lookup_perm keys perm]
  unfold Acyclic
  rw [same]
  exact acyclic

theorem coloured_perm (acyclic : Acyclic table) (keys : (table.map (·.1)).Nodup)
    (perm : table.Perm table') {entry : String × Json} (member : entry ∈ table) :
    coloured table' entry = coloured table entry := by
  have same : Progress table [] table' :=
    ⟨follows_of_lookup (Table.lookup_perm keys perm), Nat.le_of_eq perm.length_eq⟩
  have listed := Table.lookup_of_mem keys member
  obtain ⟨name, value⟩ := entry
  cases value with
  | text text => exact congrArg (Except.map (Prod.mk name)) (same.shown_value acyclic listed)
  | _ => rfl

theorem keys_of_coloured {entries : List (String × Json)} {colours : List (String × String)}
    (done : entries.mapM (coloured table) = .ok colours) : colours.map (·.1) = entries.map (·.1) := by
  have each := mapM_eq_ok.mp done
  clear done
  induction each with
  | nil => rfl
  | cons given _ ih =>
    obtain ⟨colour, -, rfl⟩ := map_eq_ok.mp given
    rw [map_cons, map_cons, ih]

theorem evalVariables_perm (acyclic : Acyclic table) (keys : (table.map (·.1)).Nodup)
    (perm : table.Perm table') {written : List (String × Json)} (done : evalVariables table = .ok (values, written)) :
    values.map (·.1) = table.map (·.1) ∧
      ∃ values' written', evalVariables table' = .ok (values', written') ∧
        ∀ name, values'.lookup name = values.lookup name := by
  have acyclic' := acyclic_perm acyclic keys perm
  have keys' : (table'.map (·.1)).Nodup := (perm.map (·.1)).nodup_iff.mp keys
  have colours : table.mapM (coloured table) = .ok values := by
    rw [← evalVariables_map acyclic keys, done]
    rfl
  have names := keys_of_coloured colours
  obtain ⟨values', colours', moved⟩ := mapM_perm perm colours
  have fold : (evalVariables table').map (·.1) = .ok values' := by
    rw [evalVariables_map acyclic' keys', ← colours']
    apply mapM_congr
    intro entry member
    exact coloured_perm acyclic keys perm (perm.mem_iff.mpr member)
  obtain ⟨⟨values', written'⟩, evaluated, rfl⟩ := map_eq_ok.mp fold
  exact ⟨names, values', written', evaluated, Table.lookup_perm (names ▸ keys) moved⟩

theorem evalColour_congr {values' : List (String × String)}
    (same : ∀ name, values'.lookup name = values.lookup name) : evalColour values' = evalColour values := by
  have known (name : String) :
      (environment values' []).known.lookup name = (environment values []).known.lookup name := by
    rw [lookup_environment, lookup_environment, same]
  have value (text : String) : value? (environment values' []) text = value? (environment values []) text := by
    rw [value?_eq, value?_eq]
    cases Form.ofText? text with
    | none => rfl
    | some form => exact evalForm_congr known (fun _ => rfl) _ form
  funext written
  cases written with
  | text text => exact value (Text.trim text)
  | _ => rfl

def evalOthers (e : Edition) (d : Document) (values : List (String × String)) :
    Except Fault (List (String × Json) × List Json) := do
  let globals ← evalGlobals values (← membersOf (← entryOf d e.globalsKey))
  let rules ← (← partsOf (← entryOf d "rules")).mapM (evalRule values)
  return (globals, rules)

theorem evalOthers_congr {values' : List (String × String)}
    (same : ∀ name, values'.lookup name = values.lookup name) (e : Edition) (d : Document) :
    evalOthers e d values' = evalOthers e d values := by
  have rules : evalRule values' = evalRule values := by
    funext rule
    simp only [evalRule, evalMember, evalColour_congr same]
  simp only [evalOthers, evalGlobals, evalColour_congr same, rules]

theorem entryOf_put_self (d : Document) (key : String) (value : Json) :
    entryOf (Table.put d key value) key = .ok value := by
  simp [entryOf, Table.lookup_put]

theorem entryOf_put_other (d : Document) {key other : String} (value : Json) (apart : other ≠ key) :
    entryOf (Table.put d key value) other = entryOf d other := by
  simp [entryOf, Table.lookup_put, apart]

theorem globalsKey_ne (e : Edition) : e.globalsKey ≠ "variables" ∧ "rules" ≠ e.globalsKey := by
  unfold Edition.globalsKey
  split
  · decide
  · decide

theorem evalDocument_eq (e : Edition) (d : Document) (table : List (String × Json)) :
    evalDocument e (Table.put d "variables" (.object table)) = do
      let (values, written) ← evalVariables table
      let (globals, rules) ← evalOthers e d values
      let d := Table.put (Table.put d "variables" (.object table)) "variables" (.object written)
      return (Table.put (Table.put d e.globalsKey (.object globals)) "rules" (.list rules), values) := by
  obtain ⟨notVariables, notRules⟩ := globalsKey_ne e
  have apart : "rules" ≠ "variables" := by decide
  simp only [evalDocument, evalOthers, entryOf_put_self, entryOf_put_other, notVariables, notRules, apart,
    ne_eq, not_false_eq_true, bind_assoc, pure_bind]
  rfl

theorem evalDocument_eq_ok {e : Edition} {d : Document} :
    (∃ document, evalDocument e (Table.put d "variables" (.object table)) = .ok (document, values)) ↔
      (∃ written, evalVariables table = .ok (values, written)) ∧
        ∃ others, evalOthers e d values = .ok others := by
  rw [evalDocument_eq]
  constructor
  · rintro ⟨document, done⟩
    obtain ⟨⟨values', written⟩, evaluated, done⟩ := bind_eq_ok.mp done
    obtain ⟨others, evaluatedOthers, done⟩ := bind_eq_ok.mp done
    obtain ⟨-, rfl⟩ := Prod.mk.inj (Except.ok.inj done)
    exact ⟨⟨written, evaluated⟩, others, evaluatedOthers⟩
  · rintro ⟨⟨written, evaluated⟩, others, evaluatedOthers⟩
    rw [evaluated]
    refine ⟨_, bind_eq_ok.mpr ⟨_, rfl, bind_eq_ok.mpr ⟨others, evaluatedOthers, rfl⟩⟩⟩

theorem evalDocument_perm {e : Edition} {d : Document} (acyclic : Acyclic table)
    (keys : (table.map (·.1)).Nodup) (perm : table.Perm table') {r : Document × List (String × String)}
    (done : evalDocument e (Table.put d "variables" (.object table)) = .ok r) : r.2.map (·.1) = table.map (·.1) ∧
      ∃ r', evalDocument e (Table.put d "variables" (.object table')) = .ok r' ∧
        ∀ name, r'.2.lookup name = r.2.lookup name := by
  obtain ⟨document, values⟩ := r
  obtain ⟨⟨written, evaluated⟩, others, evaluatedOthers⟩ := evalDocument_eq_ok.mp ⟨document, done⟩
  obtain ⟨names, values', written', evaluated', same⟩ := evalVariables_perm acyclic keys perm evaluated
  rw [← evalOthers_congr same] at evaluatedOthers
  obtain ⟨document', done'⟩ := evalDocument_eq_ok.mpr ⟨⟨written', evaluated'⟩, others, evaluatedOthers⟩
  exact ⟨names, (document', values'), done', same⟩

/-- If no variable leads back to itself, the order of the variables decides neither whether the document can
be evaluated nor the colour of any variable. -/
theorem evalDocument_ignores_order (e : Edition) (d : Document) (keys : (table.map (·.1)).Nodup)
    (acyclic : Acyclic table) (perm : table.Perm table') :
    ((∃ r, evalDocument e (Table.put d "variables" (.object table)) = .ok r) ↔
      ∃ r, evalDocument e (Table.put d "variables" (.object table')) = .ok r) ∧
    ∀ r r', evalDocument e (Table.put d "variables" (.object table)) = .ok r →
      evalDocument e (Table.put d "variables" (.object table')) = .ok r' →
      ∀ name ∈ table.map (·.1), ∃ colour, r.2.lookup name = some colour ∧ r'.2.lookup name = some colour := by
  have keys' : (table'.map (·.1)).Nodup := (perm.map (·.1)).nodup_iff.mp keys
  refine ⟨⟨?_, ?_⟩, ?_⟩
  · rintro ⟨r, done⟩
    obtain ⟨-, r', done', -⟩ := evalDocument_perm acyclic keys perm done
    exact ⟨r', done'⟩
  · rintro ⟨r', done'⟩
    obtain ⟨-, r, done, -⟩ := evalDocument_perm (acyclic_perm acyclic keys perm) keys' perm.symm done'
    exact ⟨r, done⟩
  · intro r r' done done' name member
    obtain ⟨names, again, doneAgain, same⟩ := evalDocument_perm acyclic keys perm done
    obtain rfl := Except.ok.inj (doneAgain.symm.trans done')
    rw [← names] at member
    obtain ⟨colour, found⟩ := Option.isSome_iff_exists.mp (Table.lookup_isSome_iff.mpr member)
    exact ⟨colour, found, (same name).trans found⟩

end Order

def layeredTable : List (String × Json) :=
  [("tint", .text "var(accent)"), ("accent", .text "var(base)"), ("base", .text "#aabbcc")]

theorem ofText?_layered : Form.ofText? (Text.trim "var(accent)") = some (.ofVariable "accent") ∧
      Form.ofText? (Text.trim "var(base)") = some (.ofVariable "base") ∧
      Form.ofText? (Text.trim "#aabbcc") = some (.long "aabbcc") := by
  decide +kernel

/-- How far a name is from the last variable of the table. -/
def layer (name : String) : Nat :=
  if name = "tint" then 2 else if name = "accent" then 1 else 0

theorem layer_lt {name other : String} (refers : Refers layeredTable name other) : layer other < layer name := by
  obtain ⟨text, form, found, read, member⟩ := refers
  obtain ⟨tint, accent, base⟩ := ofText?_layered
  have listed := Table.mem_of_lookup found
  simp only [layeredTable, mem_cons, Prod.mk.injEq, Json.text.injEq, not_mem_nil, or_false] at listed
  rcases listed with ⟨rfl, rfl⟩ | ⟨rfl, rfl⟩ | ⟨rfl, rfl⟩
  · obtain rfl := Option.some.inj (tint.symm.trans read)
    obtain rfl := mem_singleton.mp member
    decide
  · obtain rfl := Option.some.inj (accent.symm.trans read)
    obtain rfl := mem_singleton.mp member
    decide
  · obtain rfl := Option.some.inj (base.symm.trans read)
    exact absurd member not_mem_nil

theorem acyclic_layered : Acyclic layeredTable := by
  intro name circle
  have lower {other : String} (path : TransGen (Refers layeredTable) name other) :
      layer other < layer name := by
    induction path with
    | single refers => exact layer_lt refers
    | tail _ refers ih => exact (layer_lt refers).trans ih
  exact Nat.lt_irrefl _ (lower circle)

theorem layered_done :
    ∃ r, evalDocument {} (Table.put (emptyDocument {}) "variables" (.object layeredTable)) = .ok r := by
  have colours : (evalDocument {} (Table.put (emptyDocument {}) "variables"
      (.object layeredTable))).toOption.isSome = true := by
    decide +kernel
  cases done : evalDocument {} (Table.put (emptyDocument {}) "variables" (.object layeredTable)) with
  | error fault =>
    rw [done] at colours
    exact absurd colours Bool.false_ne_true
  | ok r => exact ⟨r, rfl⟩

/-- The layered table gives the same colours from its first variable on and from its last one on. -/
theorem evalDocument_ignores_order_layered :
    (layeredTable.map (·.1)).Nodup ∧ Acyclic layeredTable ∧ layeredTable.Perm layeredTable.reverse ∧
    ∃ r r', evalDocument {} (Table.put (emptyDocument {}) "variables" (.object layeredTable)) = .ok r ∧
      evalDocument {} (Table.put (emptyDocument {}) "variables" (.object layeredTable.reverse)) = .ok r' ∧
      ∃ colour, r.2.lookup "tint" = some colour ∧ r'.2.lookup "tint" = some colour := by
  have keys : (layeredTable.map (·.1)).Nodup := by decide
  have perm : layeredTable.Perm layeredTable.reverse := layeredTable.reverse_perm.symm
  obtain ⟨success, same⟩ := evalDocument_ignores_order {} (emptyDocument {}) keys acyclic_layered perm
  obtain ⟨r, done⟩ := layered_done
  obtain ⟨r', done'⟩ := success.mp ⟨r, done⟩
  exact ⟨keys, acyclic_layered, perm, r, r', done, done', same r r' done done' "tint" (by decide)⟩

end VhdlWorkbench.Scheme

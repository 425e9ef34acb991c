import VhdlWorkbench.Declaration.Lookup
import VhdlWorkbench.Proofs.FormOpenings
import VhdlWorkbench.Proofs.NameList
import VhdlWorkbench.Proofs.Outcomes

/-!
Where a name is found: where a line opens with a form's own word, or with the name itself.
-/

namespace VhdlWorkbench.Declaration

open String (ofList toList_ofList)
open Pattern Pattern.Node Design List Text Option Regex

/-- The text in which names are looked up: without comments, and without a component at its start. -/
def searched (source : String) : String :=
  leadingComponent.replace "" (Source.withoutComments source)

/-- A form that declares the name as an object or a type matches at a place. -/
def DeclaredAt (name : String) (text : Array Char) (pos : Nat) : Prop :=
  ∃ form ∈ formsOf name 4, ∃ m, (ofNode form.1 form.2).matchAt text pos false = some m

theorem declaredAt_between {name source : String} {cs : List Char} {low high : Nat}
    (text : searched source = ofList cs)
    (silent : ∀ pos ≤ cs.length, pos < low ∨ high < pos → ∀ form ∈ formsOf name 4,
      ((ofNode form.1 form.2).matchAt cs.toArray pos false).isNone = true) {pos : Nat}
    (declared : DeclaredAt name (searched source).toList.toArray pos) : low ≤ pos ∧ pos ≤ high := by
  obtain ⟨form, tried, m, found⟩ := declared
  rw [text, toList_ofList] at found
  have bound : pos ≤ cs.length := pos_le_of_matchAt found
  have inside : ¬(pos < low ∨ high < pos) := by
    intro outside
    have none := silent pos bound outside form tried
    rw [found] at none
    exact absurd none Bool.false_ne_true
  omega

theorem formsOf_objects (name : String) :
    formsOf name 4 =
      [(lineOptions, signalForm (nameInList name)), (lineOptions, portForm (nameInList name)),
        (lineOptions, constantForm (nameInList name)), (lineOptions, genericForm (nameInList name)),
        (blockOptions, recordForm (nameAlone name)), (lineOptions, aliasForm (.pasted name)),
        (lineOptions, externalAliasForm (.pasted name))] :=
  rfl

theorem formsOf_subset (name : String) (kinds : Int) : formsOf name kinds ⊆ formsOf name 7 := by
  have all {p : Bool} {forms : List (Options × Node)} {form : Options × Node}
      (listed : form ∈ if p then forms else []) : form ∈ forms := by
    cases p
    · exact absurd listed not_mem_nil
    · exact listed
  intro form listed
  rw [formsOf, mem_append, mem_append] at listed
  exact mem_append.mpr (listed.imp (fun unit => mem_append.mpr (unit.imp all all)) all)

theorem build_of_mem (name : Identifier) {kinds : Int} {form : Options × Node}
    (listed : form ∈ formsOf (ofList name.chars) kinds) :
    build form.1 form.2 = .ok (ofNode form.1 form.2) := by
  have texts : (formsOf (ofList name.chars) 7).map (·.2.pastedTexts) =
      replicate 9 [ofList name.chars] := rfl
  have member := mem_map_of_mem (f := (·.2.pastedTexts)) (formsOf_subset _ kinds listed)
  rw [texts] at member
  exact build_of_wordy (eq_of_mem_replicate member) (by simpa using name.wordy)

theorem firstMatch?_append {s : String} {before rest : List (Options × Node)}
    (built : ∀ form ∈ before, build form.1 form.2 = .ok (ofNode form.1 form.2))
    (fails : ∀ form ∈ before, (ofNode form.1 form.2).search? s = none) :
    firstMatch? s (before ++ rest) = firstMatch? s rest := by
  induction before with
  | nil => rfl
  | cons form before ih =>
    rw [forall_mem_cons] at built fails
    simp only [cons_append, firstMatch?, built.1, orFault, Except.mapError, fails.1, ih built.2 fails.2]

variable {source : String} (name : Identifier)

theorem lookup_of_undeclared
    (absent : ∀ pos, ¬DeclaredAt (ofList name.chars) (searched source).toList.toArray pos) :
    lookup source (ofList name.chars) 4 = .ok (notFound (ofList name.chars)) := by
  have fails : ∀ form ∈ formsOf (ofList name.chars) 4,
      (ofNode form.1 form.2).search? (searched source) = none := by
    intro form listed
    refine search?_eq_none rfl fun pos => ?_
    cases found : (ofNode form.1 form.2).matchAt (searched source).toList.toArray pos false with
    | none => rfl
    | some m => exact absurd ⟨form, listed, m, found⟩ (absent pos)
  have none : firstMatch? (searched source) (formsOf (ofList name.chars) 4 ++ []) = .ok none :=
    firstMatch?_append (fun _ listed => build_of_mem name listed) fails
  rw [append_nil] at none
  exact bind_eq_ok.mpr ⟨_, none, rfl⟩

theorem lookup_of_form (before : List (Options × Node)) {after : List (Options × Node)} {o : Options} {node : Node} {m : Match}
    {d : Declaration} {ds : List Declaration}
    (forms : formsOf (ofList name.chars) 4 = before ++ (o, node) :: after)
    (fails : ∀ form ∈ before, (ofNode form.1 form.2).search? (searched source) = none)
    (found : (ofNode o node).search? (searched source) = some m)
    (read : ofMatch (ofList name.chars) m = .ok (d :: ds)) :
    lookup source (ofList name.chars) 4 = .ok d := by
  have built : ∀ form ∈ formsOf (ofList name.chars) 4, _ := fun _ listed => build_of_mem name listed
  rw [forms] at built
  have first : firstMatch? (searched source) (formsOf (ofList name.chars) 4) = .ok (some m) := by
    rw [forms, firstMatch?_append (fun form listed => built form (mem_append_left _ listed)) fails]
    simp only [firstMatch?, built (o, node) (by simp), orFault, Except.mapError, found]
  exact bind_eq_ok.mpr ⟨_, first, bind_eq_ok.mpr ⟨_, read, rfl⟩⟩

theorem ofMatch_of_parts {m : Match} {tag type : List Char} {listed : String} (undirected : m.named? "dir" = none)
    (unvalued : m.hasName "value" = false) (tagged : m.named? "tag" = some (ofList tag))
    (typed : m.named? "type" = some (ofList type)) (named : m.named? "name" = some listed)
    (word : tag ≠ []) (letters : type ≠ []) (other : ¬Spells "port" tag)
    (unreserved : ¬Spells "entity" type ∧ ¬Spells "architecture" type) :
    ofMatch (ofList name.chars) m =
      .ok [{ text := some (collapse (replaceFirst (trim m.text) listed (ofList name.chars)))
             type := some (collapse (ofList type))
             name := ofList name.chars
             tag := toLower (ofList tag) }] := by
  have parts := shared_of_parts (ofList name.chars) undirected unvalued tagged typed word letters
  have entity : toLower (ofList type) ≠ "entity" := fun equal =>
    unreserved.1 (spells_of_toLower (by decide) equal)
  have architecture : toLower (ofList type) ≠ "architecture" := fun equal =>
    unreserved.2 (spells_of_toLower (by decide) equal)
  have port : toLower (ofList tag) ≠ "port" := fun equal =>
    other (spells_of_toLower (by decide) equal)
  have nonempty : (ofList name.chars).isEmpty = false := by simpa using name.nonempty
  simp only [ofMatch, parts, map_some, getD_some, beq_iff_eq, entity, architecture, ↓reduceIte,
    named, nonempty, Bool.false_eq_true, addIdentifiers, addIdentifier, port, name.trim_chars]
  rfl

theorem lineStart_of_declaredAt {name : String} {text : Array Char} {pos : Nat}
    (declared : DeclaredAt name text pos) : LineStart text pos := by
  obtain ⟨form, listed, m, found⟩ := declared
  rw [formsOf_objects] at listed
  simp only [mem_cons, not_mem_nil, or_false] at listed
  rcases listed with rfl | rfl | rfl | rfl | rfl | rfl | rfl
  · exact (opening_of_signal found).1
  · exact (passes_of_port found).1
  · exact (opening_of_constant found).1
  · exact (passes_of_generic found).1
  · exact (opening_of_record found).1
  · exact (opening_of_alias found).1
  · exact (opening_of_externalAlias found).1

/-- A place for a declaration that opens a line: the text before it, and the blanks directly before it. -/
structure LinePlace where
  front : List Char
  lead : Gap
  opens : front = [] ∨ '\n' ∈ lead.chars

namespace LinePlace

def text (place : LinePlace) (behind : List Char) : List Char :=
  place.front ++ (place.lead.chars ++ behind)

variable (place : LinePlace) {i : Nat}

def leadFrom (i : Nat) : Gap where
  chars := place.lead.chars.drop i
  blank := fun c member => place.lead.blank c (mem_of_mem_drop member)

theorem textFrom_lead (behind : List Char) (inside : i ≤ place.lead.chars.length) :
    textFrom (place.text behind).toArray (place.front.length + i) = (place.leadFrom i).chars ++ behind := by
  simp [textFrom, text, leadFrom, ← drop_drop, drop_append_of_le_length inside]

theorem exists_lineStart (behind : List Char) :
    ∃ i ≤ place.lead.chars.length, LineStart (place.text behind).toArray (place.front.length + i) := by
  rcases place.opens with empty | feed
  · exact ⟨0, Nat.zero_le _, Or.inl (by simp [empty])⟩
  · obtain ⟨a, b, split⟩ := append_of_mem feed
    refine ⟨a.length + 1, by simp [split], Or.inr ?_⟩
    simp [text, split]

/-- A line that begins in front of a declaration without line breaks, or in it, begins in the blanks. -/
theorem lead_of_lineStart {decl rest : List Char} (single : '\n' ∉ decl)
    (inside : place.front.length + i ≤ (place.text decl).length)
    (line : LineStart (place.text (decl ++ rest)).toArray (place.front.length + i)) :
    i ≤ place.lead.chars.length := by
  by_contra beyond
  rcases line with zero | feed
  · omega
  · apply single
    rw [text, length_append, length_append] at inside
    have before : place.front.length + i - 1 = place.front.length + (place.lead.chars.length +
        (i - place.lead.chars.length - 1)) := by omega
    rw [before] at feed
    simp only [text, getElem?_toArray, getElem?_append_right, Nat.le_add_right,
      Nat.add_sub_cancel_left] at feed
    rw [getElem?_append_left (by omega)] at feed
    exact mem_of_getElem? feed

end LinePlace

def samplePlace : LinePlace where
  front := "x;".toList
  lead := newLine
  opens := Or.inr (by decide)

end VhdlWorkbench.Declaration

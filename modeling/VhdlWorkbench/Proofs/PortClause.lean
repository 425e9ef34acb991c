import VhdlWorkbench.Proofs.NameList
import VhdlWorkbench.Proofs.Outcomes
import VhdlWorkbench.Proofs.PortLayout

/-!
The declarations read from a port clause: the ports whose name begins a line, in order.
-/

namespace VhdlWorkbench.Design

open String (ofList toList_ofList)
open Pattern Pattern.Node Declaration List String Text

/-- A port as it is reported: name, direction and type without blanks around it. -/
def portReport (d : Declaration) : String × Option String × Option String :=
  (d.name, d.direction, d.type.map Text.trim)

def PortLayout.entry (p : PortLayout) : String × Option String × Option String :=
  (ofList p.name.chars, some (ofList p.written.chars),
    some (collapse (ofList p.type.chars)))

/-- All that is reported on a port; the text of its declaration is in one line, with the blanks before the colon
left out. -/
def portFacts (d : Declaration) : String × Option String × Option String × String × Option String × Option String :=
  (d.tag, d.text, d.value, portReport d)

def PortLayout.facts (p : PortLayout) :
    String × Option String × Option String × String × Option String × Option String :=
  ("port", some (collapse ("port " ++ ofList (p.name.chars ++ ':' :: (p.afterColon.chars ++ (p.written.chars ++
    (p.beforeType.chars ++ p.type.chars)))))), none, p.entry)

theorem identifiers_single (name : Identifier) (g : Gap) :
    ∃ identifier,
      splitOn (replaceChar (ofList (name.chars ++ g.chars)) ' ' "") ',' = [identifier] ∧
        Text.trim identifier = ofList name.chars := by
  have cut := (NameList.mk name g []).identifiers
  simp only [NameList.text, NameList.more, NameList.names, flatMap_nil, append_nil, map_cons,
    map_nil] at cut
  exact map_eq_singleton_iff.mp cut

theorem PortLayout.count_declaration (p : PortLayout) {c : Char} (word : isWord c = false)
    (blank : isBlank c = false) (colon : c ≠ ':') :
    p.declaration.count c = p.type.chars.count c := by
  have gap (g : Gap) : g.chars.count c = 0 := count_eq_zero_of_not_mem (g.not_mem blank)
  have name : p.name.chars.count c = 0 := count_eq_zero_of_not_mem (p.name.not_mem word)
  have direction : p.written.chars.count c = 0 := by
    refine count_eq_zero_of_not_mem fun member => ?_
    rw [p.written.spelled.wordy p.direction.lower member] at word
    exact Bool.noConfusion word
  simp only [PortLayout.declaration, PortLayout.afterName, count_append,
    count_cons_of_ne colon.symm, gap, name, direction, Nat.zero_add, Nat.add_zero]

theorem TypeText.toLower_ne (type : TypeText) (tail : Gap) (word : String)
    (letters : ∀ p ∈ word.toList, p.toNat < 128 ∧ p.toNat ≠ 0 ∧ p.toNat ≠ 107) (lower : Lower word)
    (other : ¬Spells word type.chars) :
    Text.toLower (ofList (type.chars ++ tail.chars)) ≠ word := by
  intro equal
  have spelled : Spells word (type.chars ++ tail.chars) := spells_of_toLower letters equal
  have closed : tail.chars = [] := by
    rw [eq_nil_iff_forall_not_mem]
    intro c member
    have wordy := spelled.wordy lower (mem_append_right _ member)
    rw [isWord_of_isBlank (tail.blank c member)] at wordy
    exact Bool.noConfusion wordy
  rw [closed, append_nil] at spelled
  exact other spelled

theorem shared_of_portMatch {p : PortLayout} {place : Nat} {m : Match}
    (matched : PortMatch p place m) :
    shared "" m =
      { text := some "", type := some (ofList (p.type.chars ++ p.tail.chars)), name := "",
        tag := "port", direction := some (ofList p.written.chars) } := by
  have absent (group : String) (unnamed : [("name", 1), ("port", 3), ("type", 4)].lookup group = none) :
      m.named? group = none := by
    rw [Match.named?, matched.names, unnamed, Option.bind_none]
  have port : m.hasName "port" = true := by
    rw [Match.hasName, matched.names]
    rfl
  have tag : tagOf m = "port" := by
    simp [tagOf, absent "tag" rfl, nonempty?, port]
  have direction : directionOf m = some (ofList p.written.chars) := by
    simp [directionOf, absent "tag" rfl, absent "dir" rfl, nonempty?, matched.direction]
  have value : m.hasName "value" = false := by
    rw [Match.hasName, matched.names]
    rfl
  have type : nonempty? (m.named? "type") = some (ofList (p.type.chars ++ p.tail.chars)) := by
    rw [matched.type, nonempty?_ofList (by simp [p.type.nonempty])]
  simp only [shared, tag, direction, value, type]
  rfl

theorem PortLayout.replace_declaration (p : PortLayout) (new : String) :
    Text.replaceFirst (Text.trim (ofList p.declaration)) (ofList (p.name.chars ++ p.beforeColon.chars)) new =
      ofList (new.toList ++ ':' :: (p.afterColon.chars ++ (p.written.chars ++ (p.beforeType.chars ++
        p.type.chars)))) := by
  have split : p.declaration = ((p.name.chars ++ p.beforeColon.chars) ++ ':' :: (p.afterColon.chars ++
      (p.written.chars ++ (p.beforeType.chars ++ p.type.chars)))) ++ p.tail.chars := by
    simp [PortLayout.declaration, PortLayout.afterName]
  have opens : ∀ c, (p.name.chars ++ (p.beforeColon.chars ++ ':' :: (p.afterColon.chars ++ (p.written.chars ++
      (p.beforeType.chars ++ p.type.chars))))).head? = some c → isBlank c = false := p.name.blankless_head _
  rw [split, Text.trim_append_blanks (by simp [p.name.nonempty]) (by simpa only [List.append_assoc] using opens) ?_
    p.tail.blank, replaceFirst_front (by simp [p.name.nonempty])]
  simpa only [← List.append_assoc, ← List.cons_append, List.getLast?_append_of_ne_nil _ p.type.nonempty] using
    p.type.closes

theorem ofMatch_of_portMatch {p : PortLayout} {place : Nat} {m : Match}
    (matched : PortMatch p place m) :
    ∃ d, ofMatch "" m = .ok [d] ∧ portFacts d = p.facts := by
  obtain ⟨identifier, single, trimmed⟩ := identifiers_single p.name p.beforeColon
  have entity := p.type.toLower_ne p.tail "entity" (by decide) (by decide)
    p.type.unreserved.1
  have architecture := p.type.toLower_ne p.tail "architecture" (by decide) (by decide)
    p.type.unreserved.2
  have balanced : ¬Text.count m.text '(' < Text.count m.text ')' := by
    simp only [Text.count, matched.text, toList_ofList]
    rw [p.count_declaration (by decide) (by decide) (by decide),
      p.count_declaration (by decide) (by decide) (by decide)]
    exact Nat.not_lt.mpr p.type.balanced
  have typeTrimmed := trim_collapse_append p.type.nonempty p.type.opens p.type.closes p.tail.blank
  have parts := shared_of_portMatch matched
  have name := matched.name
  have text := p.replace_declaration (Text.trim identifier)
  rw [← matched.text, trimmed, toList_ofList] at text
  generalize ofList (p.type.chars ++ p.tail.chars) = type at *
  generalize ofList (p.name.chars ++ p.beforeColon.chars) = listed at *
  refine ⟨addIdentifier m listed type identifier (shared "" m), ?_, ?_⟩
  · simp [ofMatch, parts, entity, architecture, name, single, addIdentifiers]
  · simp only [addIdentifier, parts, trimmed, text, balanced, beq_self_eq_true, ↓reduceIte, portFacts, portReport,
      Option.map_some, typeTrimmed, PortLayout.facts, PortLayout.entry]

theorem length_le_portTexts (ports : List PortLayout) : ports.length ≤ (portTexts ports).length := by
  induction ports with
  | nil => exact Nat.le_refl 0
  | cons p ports ih =>
    simp only [portTexts, List.length_append, List.length_cons]
    omega

/-- A port clause gives the ports whose name begins a line. -/
theorem clause_of_ports (ports : List PortLayout) {content : List Char} (nonempty : content ≠ [])
    (whole : content ++ [';'] = portTexts ports) :
    ∃ ds, clause (portForm identifierList) (some (ofList content)) = .ok ds ∧
      ds.map portFacts = (linePorts true ports).map PortLayout.facts := by
  have chars : (ofList content ++ ";").toList = portTexts ports := by
    rw [← whole, toList_append, toList_ofList]
    rfl
  have here : textFrom (portTexts ports).toArray 0 = portTexts ports := textFrom_zero _
  have enough : ports.length < 2 * (portTexts ports).toArray.size + 2 := by
    have := length_le_portTexts ports
    rw [size_toArray]
    omega
  have matched := matchesFrom_portTexts ports true here (show ClauseEdge _ true 0 from rfl) enough
  have each (p : PortLayout) (m : Match) (here : ∃ place, PortMatch p place m) :
      ∃ ds, ofMatch "" m = .ok ds ∧ ds.map portFacts = [p.facts] := by
    obtain ⟨place, here⟩ := here
    obtain ⟨d, read, report⟩ := ofMatch_of_portMatch here
    exact ⟨[d], read, by rw [map_singleton, report]⟩
  obtain ⟨found, read, reports⟩ := mapM_flatten each matched
  rw [← map_eq_flatMap] at reports
  refine ⟨found.flatten, ?_, reports⟩
  rw [clause, nonempty?_ofList nonempty]
  simp only [allOfForm, Regex.matches_, chars]
  rw [show Regex.ofNode lineOptions (portForm identifierList) = portRegex from rfl, read]
  rfl

end VhdlWorkbench.Design

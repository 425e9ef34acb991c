import VhdlWorkbench.Proofs.NameList
import VhdlWorkbench.Proofs.Outcomes
import VhdlWorkbench.Proofs.PortLayout
import VhdlWorkbench.Proofs.TrimmedLines

/-!
The texts of the ports that are reported on a source.
-/

namespace VhdlWorkbench.Text

open List Option

theorem trim_keeps_front {c d : Char} {cs : List Char} (opens : cs.head? = some c)
    (first : isBlank c = false) (mark : isBlank d = false) (tail : List Char) :
    ∃ tail', trim (String.ofList (cs ++ d :: tail)) = String.ofList (cs ++ d :: tail') := by
  refine ⟨dropBlanksRight tail, ?_⟩
  have kept : dropBlanks (cs ++ d :: tail) = cs ++ d :: tail := by
    cases cs with
    | nil => simp at opens
    | cons b cs =>
      obtain rfl := some.inj opens
      exact dropWhile_cons_of_neg (by simp [first])
  have closes : ∀ b, (cs ++ [d]).getLast? = some b → isBlank b = false := by
    simp only [getLast?_append, getLast?_singleton, some_or, some.injEq]
    rintro b rfl
    exact mark
  rw [trim, String.toList_ofList, kept, append_cons, dropBlanksRight_append_left closes, ← append_cons]

theorem eraseLast_keeps_front {c : Char} {cs : List Char} (absent : c ∉ cs) (tail : List Char) :
    ∃ tail', eraseLast (String.ofList (cs ++ tail)) c = String.ofList (cs ++ tail') := by
  refine ⟨(tail.reverse.erase c).reverse, ?_⟩
  rw [eraseLast, String.toList_ofList, reverse_append]
  by_cases member : c ∈ tail.reverse
  · rw [erase_append_left _ member]
    simp
  · rw [erase_append_right _ member, erase_of_not_mem (by simpa using absent),
      erase_of_not_mem member]
    simp

end VhdlWorkbench.Text

namespace VhdlWorkbench.Declaration

open Pattern Design List Option

theorem collapseFrom_single (blank : Bool) (cs : List Char) :
    ∀ c ∈ collapseFrom blank cs, c = ' ' ∨ Text.isBlank c = false := by
  induction cs generalizing blank with
  | nil => simp [collapseFrom]
  | cons d cs ih =>
    intro c member
    rw [collapseFrom] at member
    split at member
    · split at member
      · exact ih true c member
      · rcases mem_cons.mp member with rfl | later
        · exact Or.inl rfl
        · exact ih true c later
    · next solid =>
      rcases mem_cons.mp member with rfl | later
      · exact Or.inr (by simpa using solid)
      · exact ih false c later

/-- A text that declares a port of a name in one line. -/
def DeclaresPort (name : Identifier) (text : String) : Prop :=
  ∃ rest, text = String.ofList (['p', 'o', 'r', 't'] ++ ' ' :: (name.chars ++ ':' :: rest)) ∧
    ∀ c ∈ rest, c = ' ' ∨ Text.isBlank c = false

theorem declaresPort_collapse (name : Identifier) (rest : List Char) :
    DeclaresPort name
      (collapse (String.ofList (['p', 'o', 'r', 't'] ++ ' ' :: (name.chars ++ ':' :: rest)))) := by
  have solid {c : Char} (member : c ∈ name.chars) := Text.isBlank_of_isWord (name.wordy c member)
  refine ⟨collapseFrom false rest, ?_, collapseFrom_single false rest⟩
  rw [collapse, String.toList_ofList, collapseFrom_word false (by simp) (by decide), collapseFrom,
    if_pos (by decide), if_neg (by simp), collapseFrom_word true name.nonempty fun c => solid,
    collapseFrom, if_neg (by decide)]

theorem addIdentifier_text {m : Match} {listed rest : List Char} (parts : PortParts m listed rest)
    {d : Declaration} (port : d.tag = "port") {type identifier : String} {name : Identifier}
    (named : Text.trim identifier = String.ofList name.chars) :
    ∃ text, (addIdentifier m (String.ofList listed) type identifier d).text = some text ∧
      DeclaresPort name text := by
  obtain ⟨c, opens, wordy⟩ := parts.wordy
  obtain ⟨tail, trimmed⟩ := Text.trim_keeps_front (d := ':') opens (Text.isBlank_of_isWord wordy)
    (by decide) rest
  have nonempty : listed ≠ [] := by
    rintro rfl
    simp at opens
  have replaced : "port " ++
      Text.replaceFirst (Text.trim m.text) (String.ofList listed) (Text.trim identifier) =
        String.ofList (['p', 'o', 'r', 't'] ++ ' ' :: (name.chars ++ ':' :: tail)) := by
    rw [parts.text, trimmed, Text.replaceFirst_front nonempty, named, String.toList_ofList,
      show "port " = String.ofList ['p', 'o', 'r', 't', ' '] from rfl, ← String.ofList_append]
    rfl
  simp only [addIdentifier, port, beq_self_eq_true, ↓reduceIte, replaced]
  split
  · have absent : ')' ∉ ['p', 'o', 'r', 't'] ++ ' ' :: (name.chars ++ [':']) := by
      simpa using name.not_mem (by decide)
    obtain ⟨tail', erased⟩ := Text.eraseLast_keeps_front absent tail
    refine ⟨_, rfl, ?_⟩
    simp only [append_assoc, cons_append, nil_append] at erased
    simp only [cons_append, nil_append, erased]
    exact declaresPort_collapse name tail'
  · exact ⟨_, rfl, declaresPort_collapse name tail⟩

theorem ofMatch_text {m : Match} {listed rest : List Char} (parts : PortParts m listed rest)
    {ds : List Declaration} (done : ofMatch "" m = .ok ds) {d : Declaration} (member : d ∈ ds)
    {name : Identifier} (named : d.name = String.ofList name.chars) :
    ∃ text, d.text = some text ∧ DeclaresPort name text := by
  have untagged : m.named? "tag" = none := by
    rw [Match.named?, parts.names]
    rfl
  have directed : m.hasName "port" = true := by
    rw [Match.hasName, parts.names]
    rfl
  have port : (shared "" m).tag = "port" := by
    simp [shared, tagOf, untagged, directed, nonempty?]
  have unnamed : "" ≠ String.ofList name.chars := by
    intro empty
    exact name.nonempty (by simpa using congrArg String.toList empty.symm)
  simp only [ofMatch, parts.name] at done
  split at done
  · obtain rfl := Except.ok.inj done
    obtain rfl := mem_singleton.mp member
    exact absurd named unnamed
  · split at done
    · obtain rfl := Except.ok.inj done
      obtain rfl := mem_singleton.mp member
      exact absurd named unnamed
    · obtain ⟨last, added, done⟩ := bind_eq_ok.mp done
      obtain rfl := Except.ok.inj done
      obtain ⟨identifier, inside, rfl⟩ := List.mem_map.mp member
      obtain ⟨type, d', same, rfl⟩ :=
        addIdentifiers_last added (ne_nil_of_mem inside)
      rw [(addIdentifier_fields _ _ _ _ _).2] at named
      exact addIdentifier_text parts (same.trans port) named

end VhdlWorkbench.Declaration

namespace VhdlWorkbench.Design

open Pattern Declaration List Option

theorem clause_text {content : Option String} {ports : List Declaration}
    (done : clause (portForm identifierList) content = .ok ports) {d : Declaration} (member : d ∈ ports)
    {name : Identifier} (named : d.name = String.ofList name.chars) :
    ∃ text, d.text = some text ∧ DeclaresPort name text := by
  unfold clause at done
  split at done
  · obtain rfl := Except.ok.inj done
    simp at member
  · obtain ⟨found, read, done⟩ := bind_eq_ok.mp done
    obtain rfl := Except.ok.inj done
    obtain ⟨ds, listed, inside⟩ := mem_flatten.mp member
    obtain ⟨m, matched, read⟩ := exists_of_mem_mapM read listed
    obtain ⟨place, _, here⟩ := Regex.exists_matchAt_of_mem matched
    obtain ⟨names, rest, parts⟩ := portParts_of_matchAt here
    exact ofMatch_text parts read inside named

/-- The text of a reported port whose name is an identifier declares a port of that name. -/
theorem interface_port_text {source unit : String} {i : Interface}
    (reported : interface? source unit = .ok (some i)) {d : Declaration} (member : d ∈ i.ports)
    {name : Identifier} (named : d.name = String.ofList name.chars) :
    ∃ text, d.text = some text ∧ DeclaresPort name text := by
  obtain ⟨r, -, reported⟩ := bind_eq_ok.mp reported
  split at reported
  · simp [pure, Except.pure] at reported
  · obtain ⟨generics, -, reported⟩ := bind_eq_ok.mp reported
    obtain ⟨ports, read, reported⟩ := bind_eq_ok.mp reported
    obtain rfl := some.inj (Except.ok.inj reported)
    exact clause_text read member named

end VhdlWorkbench.Design

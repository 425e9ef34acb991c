import VhdlWorkbench.Instantiate.Insert
import VhdlWorkbench.Proofs.Actions
import VhdlWorkbench.Proofs.NameSearch
import VhdlWorkbench.Proofs.SignalLines

/-!
What the ports of an instance are connected to, and when a link leads to something that exists.
-/

namespace VhdlWorkbench.Instantiate

open Design Editor List Option
open Except (ok)

variable {name source : String} {link : String × String} {q : Entry}

/-- The names that are reported on a source: those of the ports of its unit and of its signals. -/
def localNames (i : Interface) (a : Architecture) : List String :=
  (i.ports ++ a.signals).map (·.name)

theorem mem_keys_namesOf {i : Interface} {a : Architecture} :
    name ∈ (namesOf i a).map (·.1) ↔ name ∈ localNames i a := by
  rw [namesOf, Table.mem_keys_putAll, Table.mem_keys_putAll]
  simp [localNames]

theorem name_of_lookup {i : Interface} {a : Architecture} {d : Declaration}
    (found : (namesOf i a).lookup name = some d) : d.name = name ∧ name ∈ localNames i a := by
  have member := Table.mem_of_lookup found
  refine ⟨?_, mem_keys_namesOf.mp (mem_map.mpr ⟨(name, d), member, rfl⟩)⟩
  rcases Table.mem_putAll member with port | ⟨-, same⟩
  · rcases Table.mem_putAll port with none | ⟨-, same⟩
    · simp at none
    · exact same
  · exact same

section Run

variable {s : Matching} {names : Names}

/-- The signal line that is added for a port without a name. -/
def Introduces (s : Matching) (names : Names) (port : Entry) (line : String) : Prop :=
  ∃ name text, port.name = .text name ∧ port.text = .text text ∧
    Unnamed s names (s.properName name) ∧ line = asSignal text ++ ";"

/-- The link of a port: to the name that is found, or else to the proper name. -/
def Links (s : Matching) (names : Names) (port : Entry) (link : String × String) : Prop :=
  ∃ found, port.name = .text link.1 ∧ findName? s names port (s.properName link.1) = .ok found ∧
    link.2 = match found with
      | some (d, _) => d.name
      | none => s.properName link.1

theorem demand_eq_ok {f : Field} {key text : String} : f.demand key = .ok text ↔ f = .text text := by
  cases f <;> simp [Field.demand]

theorem checkConnection_undeclared {port : Entry} {checked : String × String}
    (done : checkConnection port { text := .null } = .ok checked) :
    ∃ text, port.text = .text text ∧ checked.1 = asSignal text ++ ";" := by
  obtain ⟨text, read, done⟩ := bind_eq_ok.mp done
  obtain rfl := Except.ok.inj done
  exact ⟨text, demand_eq_ok.mp read, rfl⟩

theorem add_step {c c' : Connections} {port : Entry} (done : c.add s names port = .ok c') :
    ∃ lines, c'.declarations = c.declarations ++ indented lines ∧
      (∀ line, line ∈ lines ↔ Introduces s names port line) ∧
      ∃ link, Links s names port link ∧ ∀ other ∈ c'.links, other = link ∨ other ∈ c.links := by
  obtain ⟨name, named, done⟩ := bind_eq_ok.mp done
  have named := demand_eq_ok.mp named
  obtain ⟨found, searched, done⟩ := bind_eq_ok.mp done
  cases found with
  | some found =>
    obtain ⟨d, warning⟩ := found
    obtain rfl := Except.ok.inj done
    refine ⟨[], by simp [indented], ?_, (name, d.name), ⟨_, named, searched, rfl⟩, ?_⟩
    · intro line
      simp only [not_mem_nil, false_iff]
      rintro ⟨name', text, named', -, none, -⟩
      obtain rfl := Field.text.inj (named.symm.trans named')
      rw [findName?_eq_none.mpr none] at searched
      simp at searched
    · intro other member
      exact (Table.mem_put.mp member).imp id And.left
  | none =>
    obtain ⟨checked, check, done⟩ := bind_eq_ok.mp done
    obtain rfl := Except.ok.inj done
    obtain ⟨text, written, line_eq⟩ := checkConnection_undeclared check
    refine ⟨[checked.1], by simp [indented, String.append_assoc], ?_, (name, s.properName name),
      ⟨_, named, searched, rfl⟩, ?_⟩
    · intro line
      rw [mem_singleton, line_eq]
      constructor
      · rintro rfl
        exact ⟨name, text, named, written, findName?_eq_none.mp searched, rfl⟩
      · rintro ⟨_, text', -, written', -, rfl⟩
        rw [Field.text.inj (written.symm.trans written')]
    · intro other member
      exact (Table.mem_put.mp member).imp id And.left

theorem foldlM_add {ports : List Entry} {c c' : Connections}
    (done : ports.foldlM (fun c port => c.add s names port) c = .ok c') :
    ∃ lines, c'.declarations = c.declarations ++ indented lines ∧
      (∀ line, line ∈ lines ↔ ∃ port ∈ ports, Introduces s names port line) ∧
      (∀ port ∈ ports, ∃ link, Links s names port link) ∧
      ∀ link ∈ c'.links, link ∈ c.links ∨ ∃ port ∈ ports, Links s names port link := by
  induction ports generalizing c with
  | nil =>
    obtain rfl := Except.ok.inj done
    exact ⟨[], by simp [indented], by simp, by simp, fun link member => Or.inl member⟩
  | cons port ports ih =>
    rw [foldlM_cons] at done
    obtain ⟨c₁, first, rest⟩ := bind_eq_ok.mp done
    obtain ⟨own, added, introduced, link, linked, kept⟩ := add_step first
    obtain ⟨lines, more, introduced', linked', kept'⟩ := ih rest
    refine ⟨own ++ lines, ?_, ?_, ?_, ?_⟩
    · rw [more, added, indented_append, String.append_assoc]
    · intro line
      simp only [mem_append, introduced, introduced', mem_cons, or_and_right, exists_or,
        exists_eq_left]
    · intro other member
      rcases mem_cons.mp member with rfl | later
      · exact ⟨link, linked⟩
      · exact linked' other later
    · intro other member
      rcases kept' other member with early | ⟨q, later, its⟩
      · rcases kept other early with rfl | old
        · exact Or.inr ⟨port, mem_cons_self, linked⟩
        · exact Or.inl old
      · exact Or.inr ⟨q, mem_cons_of_mem port later, its⟩

end Run

/-- The target of a link exists: it is a name of the source, or a new signal. -/
def TargetExists (i : Interface) (a : Architecture) (c : Connections) (target : String) : Prop :=
  target ∈ localNames i a ∨ target ∈ declaredNames c.declarations

section Targets

variable {s : Matching} {i : Interface} {a : Architecture} {ports : List Entry} {c : Connections}
  {port target : String}

theorem mem_declaredNames (done : connect s (namesOf i a) ports = .ok c) : name ∈ declaredNames c.declarations ↔
      ∃ q ∈ ports, ∃ line, Introduces s (namesOf i a) q line ∧ name ∈ declaredNames line := by
  obtain ⟨lines, text, introduced, -⟩ := foldlM_add done
  have whole : c.declarations = indented lines := by
    rw [text]
    simp
  simp only [whole, declaredNames_indented, mem_flatMap, introduced]
  constructor
  · rintro ⟨line, ⟨q, member, its⟩, inside⟩
    exact ⟨q, member, line, its, inside⟩
  · rintro ⟨q, member, line, its, inside⟩
    exact ⟨line, ⟨q, member, its⟩, inside⟩

theorem links_of_mem (done : connect s (namesOf i a) ports = .ok c) (member : link ∈ c.links) :
    ∃ q ∈ ports, Links s (namesOf i a) q link := by
  obtain ⟨-, -, -, -, kept⟩ := foldlM_add done
  rcases kept link member with none | found
  · simp at none
  · exact found

theorem target_of_unnamed (linked : Links s (namesOf i a) q (port, target))
    (none : Unnamed s (namesOf i a) (s.properName port)) : target = s.properName port ∧ target ∉ localNames i a := by
  obtain ⟨found, -, searched, same⟩ := linked
  rw [findName?_eq_none.mpr none] at searched
  obtain rfl := Except.ok.inj searched
  refine ⟨same, fun member => ?_⟩
  rw [show target = s.properName port from same, ← mem_keys_namesOf, ← Table.lookup_isSome_iff,
    none.absent] at member
  simp at member

theorem target_of_named (linked : Links s (namesOf i a) q (port, target))
    (named : ¬Unnamed s (namesOf i a) (s.properName port)) : target ∈ localNames i a := by
  obtain ⟨found, -, searched, same⟩ := linked
  cases found with
  | none => exact absurd (findName?_eq_none.mp searched) named
  | some found =>
    obtain ⟨d, warning⟩ := found
    rw [show target = d.name from same]
    have listed {key : String} (there : (namesOf i a).lookup key = some d) : d.name ∈ localNames i a := by
      obtain ⟨rfl, member⟩ := name_of_lookup there
      exact member
    rcases findName?_eq_some searched with there | ⟨-, r, -, m, -, there⟩ | ⟨-, r, -, m, -, there⟩
    · exact listed there
    · exact listed there
    · exact listed there

theorem targetExists_iff (done : connect s (namesOf i a) ports = .ok c) (link : (port, target) ∈ c.links) :
    TargetExists i a c target ↔
      (Unnamed s (namesOf i a) (s.properName port) →
        ∃ q ∈ ports, ∃ line, Introduces s (namesOf i a) q line ∧ s.properName port ∈ declaredNames line) := by
  obtain ⟨q, -, linked⟩ := links_of_mem done link
  by_cases none : Unnamed s (namesOf i a) (s.properName port)
  · obtain ⟨rfl, unused⟩ := target_of_unnamed linked none
    simp only [TargetExists, unused, false_or, none, true_implies]
    exact mem_declaredNames done
  · simp only [none, false_implies, iff_true]
    exact Or.inl (target_of_named linked none)

/-- The source has a name that suits a port. -/
def Served (s : Matching) (i : Interface) (a : Architecture) (port : String) : Prop :=
  ∃ name ∈ localNames i a, Suits s (s.properName port) name

theorem properName_wordy (s : Matching) (named : isName name = true) :
    ∀ c ∈ (s.properName name).toList, Text.isWord c = true := by
  obtain ⟨identifier, rfl⟩ := exists_identifier named
  have lead : ∀ c ∈ (dropLead (String.ofList identifier.chars) s.leads).toList, Text.isWord c = true := by
    unfold dropLead
    split
    · simpa using fun c member => identifier.wordy c (mem_of_mem_drop member)
    · simpa using identifier.wordy
  unfold Matching.properName dropTail
  split
  · split
    · simp
    · simpa using fun c member => lead c (mem_of_mem_take member)
  · exact lead

theorem unnamed_iff_not_served (named : isName name = true) (linked : Links s (namesOf i a) q (name, target)) :
    Unnamed s (namesOf i a) (s.properName name) ↔ ¬Served s i a name := by
  obtain ⟨found, -, searched, -⟩ := linked
  rw [unnamed_iff (properName_wordy s named) searched, Served]
  simp only [mem_keys_namesOf, not_exists, not_and]

/-- The line that is added for a reported port declares a signal of the port's name. -/
theorem introduces_port {unit : String} {j : Interface} {names : Names}
    (reported : interface? source unit = .ok (some j)) {d : Declaration} (member : d ∈ j.ports)
    (named : isName d.name = true) (name : String) :
    (∃ line, Introduces s names d.toEntry line ∧ name ∈ declaredNames line) ↔
      d.name = name ∧ Unnamed s names (s.properName d.name) := by
  obtain ⟨identifier, same⟩ := exists_identifier named
  obtain ⟨text, written, declares⟩ := interface_port_text reported member same
  have declared := declaredNames_asSignal declares
  rw [← same] at declared
  have field : d.toEntry.text = .text text := by
    rw [Declaration.toEntry, written]
    rfl
  constructor
  · rintro ⟨_, ⟨name', text', named', written', none, rfl⟩, inside⟩
    obtain rfl := Field.text.inj named'
    obtain rfl := Field.text.inj (field.symm.trans written')
    rw [declared, mem_singleton] at inside
    exact ⟨inside.symm, none⟩
  · rintro ⟨rfl, none⟩
    exact ⟨_, ⟨d.name, text, rfl, field, none, rfl⟩, by simp [declared]⟩

theorem port_of_link {declared : List Declaration}
    (done : connect s (namesOf i a) (declared.map (·.toEntry)) = .ok c) (link : (port, target) ∈ c.links) :
    ∃ d ∈ declared, d.name = port := by
  obtain ⟨q, inside, _, named, -⟩ := links_of_mem done link
  obtain ⟨own, member, rfl⟩ := mem_map.mp inside
  exact ⟨own, member, Field.text.inj named⟩

theorem targetExists_iff_of_reported {unit : String} {j : Interface}
    (reported : interface? source unit = .ok (some j)) (named : ∀ d ∈ j.ports, isName d.name = true)
    (done : connect s (namesOf i a) (j.ports.map (·.toEntry)) = .ok c) (link : (port, target) ∈ c.links) :
    TargetExists i a c target ↔
      Served s i a port ∨ ∃ d ∈ j.ports, d.name = s.properName port ∧ ¬Served s i a d.name := by
  have unnamed {d : Declaration} (member : d ∈ j.ports) :
      Unnamed s (namesOf i a) (s.properName d.name) ↔ ¬Served s i a d.name := by
    obtain ⟨-, -, -, linked, -⟩ := foldlM_add done
    obtain ⟨⟨name, other⟩, its⟩ := linked d.toEntry (mem_map_of_mem member)
    obtain rfl : d.name = name := Field.text.inj (its.choose_spec.1)
    exact unnamed_iff_not_served (named d member) its
  obtain ⟨own, member, rfl⟩ := port_of_link done link
  rw [targetExists_iff done link, unnamed member]
  simp only [List.mem_map, exists_exists_and_eq_and]
  rw [show (∃ d, d ∈ j.ports ∧ ∃ line, Introduces s (namesOf i a) d.toEntry line ∧
      s.properName own.name ∈ declaredNames line) ↔
        ∃ d ∈ j.ports, d.name = s.properName own.name ∧ ¬Served s i a d.name from
      exists_congr fun d => and_congr_right fun member => by
        rw [introduces_port reported member (named d member), unnamed member]]
  exact or_iff_not_imp_left.symm

end Targets

section Buffer

variable {id : Nat} {unit : Option (List Entry)} {w w' : Workspace} {c : Connections} {port target : String}

theorem connect_of_connectIn {wanted : Except Fault Matching} {ports : List Entry}
    (done : connectIn source wanted ports = .ok c) (member : link ∈ c.links) :
    ∃ s i a, wanted = .ok s ∧ interface? source Pattern.Node.anyName = .ok (some i) ∧
      architecture? source Pattern.Node.anyName = .ok (some a) ∧ connect s (namesOf i a) ports = .ok c := by
  obtain ⟨a, architecture, done⟩ := bind_eq_ok.mp done
  cases a with
  | none =>
    obtain rfl := Except.ok.inj done
    simp at member
  | some a =>
    obtain ⟨i, interface, done⟩ := bind_eq_ok.mp done
    cases i with
    | none => simp [throw, throwThe, MonadExceptOf.throw] at done
    | some i =>
      obtain ⟨s, rfl, done⟩ := bind_eq_ok.mp done
      exact ⟨s, i, a, rfl, interface, architecture, done⟩

/-- An instance has links only if its ports are known and connected in the text of the buffer. -/
theorem connectIn_of_connectionsOf
    (done : Act.Yields (connectionsOf id unit) w c w') (member : link ∈ c.links) :
    ∃ b ports, w.buffers.find? (·.id == id) = some b ∧ unit = some ports ∧
      connectIn b.contents (matchingOf b) ports = .ok c := by
  obtain ⟨b, _, at_hand, rest⟩ := Act.yields_bind.mp done
  obtain ⟨found, rfl⟩ := Act.yields_buffer.mp at_hand
  have unlinked {v : Workspace} (given : Act.Yields (pure {}) v c w') : False := by
    obtain ⟨rfl, -⟩ := Act.yields_pure.mp given
    simp at member
  split at rest
  · exact (unlinked rest).elim
  · cases unit with
    | none => exact absurd rest Act.yields_throw
    | some ports =>
      simp only at rest
      split at rest
      · exact (unlinked rest).elim
      · obtain ⟨text, v, read, rest⟩ := Act.yields_bind.mp rest
        obtain ⟨b', found', rfl, -⟩ := Act.yields_contents.mp read
        obtain rfl := some.inj (found.symm.trans found')
        exact ⟨b, ports, found, rfl, (Act.yields_lift.mp rest).1⟩

/-- The target of a link exists exactly if the buffer has a name for the port, or a signal that is declared
for some port has the proper name. For a unit that was read from a source, that is a port without a name in
the buffer which is itself called like the proper name; so every target exists if nothing is taken off. -/
theorem link_exists_iff (done : Act.Yields (connectionsOf id unit) w c w') (link : (port, target) ∈ c.links) :
    ∃ b s ports i a, w.buffers.find? (·.id == id) = some b ∧ matchingOf b = .ok s ∧ unit = some ports ∧
      interface? b.contents Pattern.Node.anyName = .ok (some i) ∧
      architecture? b.contents Pattern.Node.anyName = .ok (some a) ∧
      (TargetExists i a c target ↔
        (Unnamed s (namesOf i a) (s.properName port) →
          ∃ q ∈ ports, ∃ line, Introduces s (namesOf i a) q line ∧
            s.properName port ∈ declaredNames line)) ∧
      ∀ source name j, interface? source name = .ok (some j) → ports = j.ports.map (·.toEntry) →
        (∀ d ∈ j.ports, isName d.name = true) →
        (TargetExists i a c target ↔
          Served s i a port ∨ ∃ d ∈ j.ports, d.name = s.properName port ∧ ¬Served s i a d.name) ∧
        (s.properName port = port → TargetExists i a c target) := by
  obtain ⟨b, ports, found, known, connected⟩ := connectIn_of_connectionsOf done link
  obtain ⟨s, i, a, wanted, interface, architecture, connected⟩ := connect_of_connectIn connected link
  refine ⟨b, s, ports, i, a, found, wanted, known, interface, architecture,
    targetExists_iff connected link, ?_⟩
  rintro source name j reported rfl named
  have exact_when := targetExists_iff_of_reported reported named connected link
  refine ⟨exact_when, fun unchanged => exact_when.mpr ?_⟩
  rw [unchanged]
  by_cases served : Served s i a port
  · exact Or.inl served
  · obtain ⟨own, member, rfl⟩ := port_of_link connected link
    exact Or.inr ⟨own, member, rfl, served⟩

end Buffer

/-- A buffer that wants connections gives those of its text. -/
theorem yields_connectionsOf {w w' : Workspace} {b : Buffer} {ports : List Entry} {c : Connections}
    (found : w.buffers.find? (·.id == b.id) = some b) (free : w.questions < Act.questionLimit)
    (wants : b.flag "vhdl.autoconnect" false = true) (some_port : ports.isEmpty = false) :
    Act.Yields (connectionsOf b.id (some ports)) w c w' ↔
      connectIn b.contents (matchingOf b) ports = .ok c ∧ w' = { w with questions := w.questions + 1 } := by
  simp only [connectionsOf, Act.yields_bind, Act.yields_buffer]
  constructor
  · rintro ⟨b', _, ⟨found', rfl⟩, rest⟩
    obtain rfl := some.inj (found.symm.trans found')
    simp only [wants, Bool.not_true, Bool.false_eq_true, ↓reduceIte, some_port] at rest
    obtain ⟨text, v, read, rest⟩ := Act.yields_bind.mp rest
    obtain ⟨b', found', rfl, -, rfl⟩ := Act.yields_contents.mp read
    obtain rfl := some.inj (found.symm.trans found')
    exact Act.yields_lift.mp rest
  · intro connected
    refine ⟨b, w, ⟨found, rfl⟩, ?_⟩
    simp only [wants, Bool.not_true, Bool.false_eq_true, ↓reduceIte, some_port]
    exact Act.yields_bind.mpr ⟨b.contents, _, Act.yields_contents.mpr ⟨b, found, rfl, free, rfl⟩,
      Act.yields_lift.mpr connected⟩

/-- A buffer with an architecture without names, in which `i_` is taken off the names of ports. -/
def bareBuffer : Buffer where
  id := 1
  text := "entity top is\nend top;\narchitecture rtl of top is\nbegin\nend rtl;\n".toList.toArray
  settings := [("vhdl.autoconnect", .bool true), ("vhdl.autoconnect_port_prefix", .list [.text "i_"])]

theorem bare_read :
    interface? bareBuffer.contents Pattern.Node.anyName = .ok (some { name := "top", kind := "entity" }) ∧
      architecture? bareBuffer.contents Pattern.Node.anyName = .ok (some { unit := "top", name := "rtl" }) := by
  constructor
  · decide +kernel
  · decide +kernel

theorem bare_yields {ports : List Entry} {c : Connections} (some_port : ports.isEmpty = false)
    (connected : connect { leads := ["i_"] } [] ports = .ok c) :
    Act.Yields (connectionsOf 1 (some ports)) { buffers := [bareBuffer] } c
      { buffers := [bareBuffer], questions := 1 } :=
  (yields_connectionsOf (b := bareBuffer) rfl (by decide) rfl some_port).mpr
    ⟨bind_eq_ok.mpr ⟨_, bare_read.2, bind_eq_ok.mpr ⟨_, bare_read.1,
      bind_eq_ok.mpr ⟨_, rfl, connected⟩⟩⟩, rfl⟩

def inputBit (name : String) : Declaration where
  text := some ("port " ++ name ++ ": in bit")
  type := some "bit"
  name := name
  tag := "port"
  direction := some "in"

/-- The ports of a unit with two clocks and of one with a single clock. -/
theorem sub_read :
    interface? "entity sub is\nport (\ni_clk : in bit;\nclk : in bit);\nend sub;\n" "sub" =
        .ok (some { name := "sub", kind := "entity", ports := [inputBit "i_clk", inputBit "clk"] }) ∧
      interface? "entity sub is\nport (\nclk : in bit);\nend sub;\n" "sub" =
        .ok (some { name := "sub", kind := "entity", ports := [inputBit "clk"] }) := by
  constructor
  · decide +kernel
  · decide +kernel

/-- A link to the signal that is declared for another port. -/
theorem link_exists_iff_sample :
    ∃ c, Act.Yields (connectionsOf 1 (some ([inputBit "i_clk", inputBit "clk"].map (·.toEntry))))
        { buffers := [bareBuffer] } c { buffers := [bareBuffer], questions := 1 } ∧
      ("i_clk", "clk") ∈ c.links ∧
      TargetExists { name := "top", kind := "entity" } { unit := "top", name := "rtl" } c "clk" := by
  have connected : connect { leads := ["i_"] } [] ([inputBit "i_clk", inputBit "clk"].map (·.toEntry)) =
      .ok { declarations := "\tsignal i_clk:  bit;\n\tsignal clk:  bit;\n",
            links := [("i_clk", "clk"), ("clk", "clk")] } := by decide
  have done := bare_yields rfl connected
  have link : ("i_clk", "clk") ∈ [("i_clk", "clk"), ("clk", "clk")] := by decide
  refine ⟨_, done, link, ?_⟩
  obtain ⟨b, s, ports, i, a, found, wanted, known, interface, architecture, -, reported⟩ :=
    link_exists_iff done link
  obtain rfl : bareBuffer = b := some.inj found
  obtain rfl : { leads := ["i_"] } = s := Except.ok.inj wanted
  obtain rfl := some.inj (Except.ok.inj (bare_read.1.symm.trans interface))
  obtain rfl := some.inj (Except.ok.inj (bare_read.2.symm.trans architecture))
  obtain rfl := some.inj known
  refine (reported _ _ _ sub_read.1 rfl (by decide)).1.mpr (Or.inr ⟨inputBit "clk", by simp, by decide, ?_⟩)
  rintro ⟨name, none, -⟩
  simp [localNames] at none

/-- The name that a port is linked to need not exist: the signal that is declared for it has another name. -/
theorem link_to_undeclared_name :
    ∃ c, Act.Yields (connectionsOf 1 (some [(inputBit "i_clk").toEntry])) { buffers := [bareBuffer] } c
        { buffers := [bareBuffer], questions := 1 } ∧
      ("i_clk", "clk") ∈ c.links ∧
      ∃ i a, interface? bareBuffer.contents Pattern.Node.anyName = .ok (some i) ∧
        architecture? bareBuffer.contents Pattern.Node.anyName = .ok (some a) ∧ ¬TargetExists i a c "clk" := by
  have connected : connect { leads := ["i_"] } [] [(inputBit "i_clk").toEntry] =
      .ok { declarations := "\tsignal i_clk:  bit;\n", links := [("i_clk", "clk")] } := by decide
  refine ⟨_, bare_yields rfl connected, by decide, _, _, bare_read.1, bare_read.2, ?_⟩
  rintro (listed | declared)
  · simp [localNames] at listed
  · revert declared
    decide

end VhdlWorkbench.Instantiate

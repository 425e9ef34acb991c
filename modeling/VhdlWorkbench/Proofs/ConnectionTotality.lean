import VhdlWorkbench.Proofs.LinkTargets
import VhdlWorkbench.Proofs.ReadableForms
import VhdlWorkbench.Proofs.SignalWarnings

/-!
When the ports of a unit can be connected in a buffer.
-/

namespace VhdlWorkbench.Declaration

open Pattern Pattern.Node Design List Except

variable {m : Match} {d e : Declaration}

theorem addIdentifiers_shared {listed : String} {identifiers : List String}
    (done : addIdentifiers m listed d identifiers = .ok e) : e.tag = d.tag ∧ e.direction = d.direction := by
  induction identifiers generalizing d with
  | nil =>
    obtain rfl := ok.inj done
    exact ⟨rfl, rfl⟩
  | cons identifier rest ih =>
    rw [addIdentifiers] at done
    split at done
    · simp at done
    · next type _ =>
      have kept : (addIdentifier m listed type identifier d).direction = d.direction := by
        unfold addIdentifier
        split
        · split <;> rfl
        · rfl
      obtain ⟨tag, direction⟩ := ih done
      exact ⟨tag.trans (addIdentifier_fields m listed type identifier d).1, direction.trans kept⟩

theorem ofMatch_shared {ds : List Declaration} (done : ofMatch "" m = .ok ds) (member : d ∈ ds) :
    d.tag = tagOf m ∧ d.direction = directionOf m := by
  simp only [ofMatch] at done
  split at done
  · obtain rfl := ok.inj done
    obtain rfl := mem_singleton.mp member
    exact ⟨rfl, rfl⟩
  · split at done
    · obtain rfl := ok.inj done
      obtain rfl := mem_singleton.mp member
      exact ⟨rfl, rfl⟩
    · split at done
      · simp at done
      · obtain ⟨last, added, done⟩ := bind_eq_ok.mp done
        obtain rfl := ok.inj done
        obtain ⟨_, -, rfl⟩ := mem_map.mp member
        exact addIdentifiers_shared added

theorem exists_match_of_form {options : Options} {form : Node} {text : String} {ds : List Declaration}
    (done : allOfForm options form text = .ok ds) (member : d ∈ ds) :
    ∃ m ∈ (Regex.ofNode options form).matches_ text, d.tag = tagOf m ∧ d.direction = directionOf m := by
  obtain ⟨found, read, done⟩ := bind_eq_ok.mp done
  obtain rfl := ok.inj done
  obtain ⟨own, listed, inside⟩ := mem_flatten.mp member
  obtain ⟨m, matched, read⟩ := exists_of_mem_mapM read listed
  exact ⟨m, matched, ofMatch_shared read inside⟩

end VhdlWorkbench.Declaration

namespace VhdlWorkbench.Design

open Pattern Pattern.Node Declaration List Except

variable {source unit : String} {d : Declaration}

theorem interface_port_directed {i : Interface} (reported : interface? source unit = .ok (some i))
    (member : d ∈ i.ports) : d.direction.isSome = true := by
  obtain ⟨r, -, reported⟩ := bind_eq_ok.mp reported
  split at reported
  · simp [pure, Except.pure] at reported
  · obtain ⟨generics, -, reported⟩ := bind_eq_ok.mp reported
    obtain ⟨ports, read, reported⟩ := bind_eq_ok.mp reported
    obtain rfl := Option.some.inj (Except.ok.inj reported)
    unfold clause at read
    split at read
    · obtain rfl := Except.ok.inj read
      simp at member
    · obtain ⟨m, found, -, direction⟩ := exists_match_of_form read member
      obtain ⟨u, u', -, named⟩ := Regex.named_of_mem found (show Regex.part? _ "port" = some _ from rfl)
      have absent : m.named? "dir" = none ∧ m.named? "tag" = none := by
        obtain ⟨_, _, matched⟩ := Regex.exists_matchAt_of_mem found
        obtain ⟨_, -, rfl⟩ := Regex.matchAt_reaches matched
        exact ⟨rfl, rfl⟩
      simp [direction, directionOf, absent, named, nonempty?]

theorem architecture_signal_tag {a : Architecture} (reported : architecture? source unit = .ok (some a))
    (member : d ∈ a.signals) : d.tag ≠ "port" := by
  obtain ⟨r, -, reported⟩ := bind_eq_ok.mp reported
  split at reported
  · simp [pure, Except.pure] at reported
  · obtain ⟨signals, read, reported⟩ := bind_eq_ok.mp reported
    obtain ⟨_, -, reported⟩ := bind_eq_ok.mp reported
    obtain ⟨_, -, reported⟩ := bind_eq_ok.mp reported
    obtain ⟨_, -, reported⟩ := bind_eq_ok.mp reported
    obtain rfl := Option.some.inj (Except.ok.inj reported)
    obtain ⟨m, found, tag, -⟩ := exists_match_of_form read member
    obtain ⟨u, u', passed, named⟩ := Regex.named_of_mem found
      (show Regex.part? _ "tag" = some (choice [lit "signal", lit "variable"]) from rfl)
    obtain ⟨w, long, here, stop⟩ : ∃ w, 6 ≤ w.length ∧ textFrom _ u.pos = w ++ textFrom _ u'.pos ∧
        u'.pos = u.pos + w.length := by
      rcases passed with signal | variable_
      · obtain ⟨w, reads, here, rfl⟩ := reaches_word signal
        exact ⟨w, Nat.le_of_eq reads.length_eq.symm, here, rfl⟩
      · obtain ⟨w, reads, here, rfl⟩ := reaches_word variable_
        exact ⟨w, by rw [reads.length_eq]; decide, here, rfl⟩
    rw [stop, segment_of_textFrom here] at named
    intro port
    have nonempty : w ≠ [] := length_pos_iff.mp (by omega)
    rw [tag, tagOf, named, nonempty?_ofList nonempty] at port
    have short := (spells_of_toLower (by decide) port).length_eq
    have four : "port".length = 4 := rfl
    omega

end VhdlWorkbench.Design

namespace VhdlWorkbench.Instantiate

open Pattern.Node Design Editor List Except

/-- A port can be compared with a name that has a direction if it is one of a port. -/
theorem checkConnection_total {p other : Declaration} {port : String} (told : p.text = some port)
    (named : isName p.name = true) (named' : isName other.name = true) (directed : p.direction.isSome = true)
    (directed' : other.tag = "port" → other.direction.isSome = true) :
    ∃ checked, checkConnection p.toEntry other.toEntry = .ok checked := by
  obtain ⟨own, same⟩ := exists_identifier named
  obtain ⟨name, same'⟩ := exists_identifier named'
  have told' : p.toEntry.text.demand "decl" = .ok port := by
    simp only [Declaration.toEntry, told]
    rfl
  cases declared : other.text with
  | none =>
    refine ⟨_, bind_eq_ok.mpr ⟨port, told', bind_eq_ok.mpr ⟨none, ?_, rfl⟩⟩⟩
    simp only [Declaration.toEntry, declared]
    rfl
  | some text =>
    cases empty : text.isEmpty with
    | true =>
      refine ⟨_, bind_eq_ok.mpr ⟨port, told', bind_eq_ok.mpr ⟨some text, ?_, if_pos empty⟩⟩⟩
      simp only [Declaration.toEntry, declared]
      rfl
    | false =>
      exact ⟨_, checkConnection_declared told declared empty (fun port => ⟨directed' port, directed⟩)
        (same' ▸ wholeWord_name name) (same ▸ replaceWith_name _ own _)⟩

section Reported

variable {source unit text : String} {i j : Interface} {a : Architecture} {s : Matching}

theorem checkConnection_namesOf (reported : interface? source unit = .ok (some j))
    (interface : interface? text anyName = .ok (some i)) (architecture : architecture? text anyName = .ok (some a))
    (proper : ∀ name ∈ localNames i a, isName name = true) {p : Declaration} (member : p ∈ j.ports)
    (named : isName p.name = true) :
    ∀ d ∈ (namesOf i a).map (·.2), ∃ checked, checkConnection p.toEntry d.toEntry = .ok checked := by
  obtain ⟨own, same⟩ := exists_identifier named
  obtain ⟨port, told, -⟩ := interface_port_text reported member same
  intro d known
  obtain ⟨⟨_, d⟩, entry, rfl⟩ := mem_map.mp known
  have listed : d ∈ i.ports ∨ d ∈ a.signals := by
    rcases Table.mem_putAll entry with port | ⟨signal, -⟩
    · rcases Table.mem_putAll port with none | ⟨port, -⟩
      · simp at none
      · exact Or.inl port
    · exact Or.inr signal
  refine checkConnection_total told named
    (proper d.name (mem_map_of_mem (mem_append.mpr listed))) (interface_port_directed reported member)
    fun port => ?_
  rcases listed with listed | listed
  · exact interface_port_directed interface listed
  · exact absurd port (architecture_signal_tag architecture listed)

/-- A reported port is connected if every name of the source can be compared with it, and then has a link. -/
theorem add_total {names : Names} (reported : interface? source unit = .ok (some j))
    (proper : ∀ name ∈ names.map (·.1), isName name = true) {p : Declaration} (member : p ∈ j.ports)
    (named : isName p.name = true)
    (checks : ∀ d ∈ names.map (·.2), ∃ checked, checkConnection p.toEntry d.toEntry = .ok checked)
    (c : Connections) :
    ∃ c', c.add s names p.toEntry = .ok c' ∧
      ∀ port, port ∈ c'.links.map (·.1) ↔ port = p.name ∨ port ∈ c.links.map (·.1) := by
  obtain ⟨own, same⟩ := exists_identifier named
  obtain ⟨port, told, -⟩ := interface_port_text reported member same
  obtain ⟨found, searched⟩ := findName?_total (s := s) (properName_wordy s named) proper checks
  cases found with
  | some found =>
    exact ⟨_, bind_eq_ok.mpr ⟨p.name, rfl, bind_eq_ok.mpr ⟨some found, searched, rfl⟩⟩,
      fun _ => Table.mem_keys_put⟩
  | none =>
    have told' : p.toEntry.text.demand "decl" = .ok port := by
      simp only [Declaration.toEntry, told]
      rfl
    exact ⟨_, bind_eq_ok.mpr ⟨p.name, rfl, bind_eq_ok.mpr ⟨none, searched,
      bind_eq_ok.mpr ⟨_, bind_eq_ok.mpr ⟨port, told', rfl⟩, rfl⟩⟩⟩, fun _ => Table.mem_keys_put⟩

/-- The connection of ports, each of which can be connected, gives every one of them a link. -/
theorem foldlM_total {names : Names} {ports : List Declaration}
    (each : ∀ p ∈ ports, ∀ c : Connections, ∃ c', c.add s names p.toEntry = .ok c' ∧
      ∀ port, port ∈ c'.links.map (·.1) ↔ port = p.name ∨ port ∈ c.links.map (·.1)) (c : Connections) :
    ∃ c', (ports.map (·.toEntry)).foldlM (fun c port => c.add s names port) c = .ok c' ∧
      ∀ port, port ∈ c'.links.map (·.1) ↔ port ∈ ports.map (·.name) ∨ port ∈ c.links.map (·.1) := by
  induction ports generalizing c with
  | nil => exact ⟨c, rfl, by simp⟩
  | cons p ports ih =>
    obtain ⟨c₁, first, keys⟩ := each p mem_cons_self c
    obtain ⟨c', rest, keys'⟩ := ih (fun q later => each q (mem_cons_of_mem p later)) c₁
    refine ⟨c', ?_, fun port => ?_⟩
    · rw [map_cons, foldlM_cons]
      exact bind_eq_ok.mpr ⟨c₁, first, rest⟩
    · rw [keys', keys, map_cons, mem_cons, or_left_comm, or_assoc]

/-- The ports of a reported unit are connected in a source that has a unit and an architecture. -/
theorem connect_total (reported : interface? source unit = .ok (some j))
    (named : ∀ d ∈ j.ports, isName d.name = true) (interface : interface? text anyName = .ok (some i))
    (architecture : architecture? text anyName = .ok (some a))
    (proper : ∀ name ∈ localNames i a, isName name = true) :
    ∃ c, connect s (namesOf i a) (j.ports.map (·.toEntry)) = .ok c ∧
      ∀ d ∈ j.ports, d.name ∈ c.links.map (·.1) := by
  have each (p : Declaration) (member : p ∈ j.ports) := add_total (s := s) reported
    (fun name known => proper name (mem_keys_namesOf.mp known)) member (named p member)
    (checkConnection_namesOf reported interface architecture proper member (named p member))
  obtain ⟨c, done, keys⟩ := foldlM_total each {}
  exact ⟨c, done, fun d member => (keys d.name).mpr (Or.inl (mem_map_of_mem member))⟩

end Reported

theorem connectionsOf_unwanted {w : Workspace} {b : Buffer} {ports : List Entry}
    (found : w.buffers.find? (·.id == b.id) = some b)
    (unwanted : b.flag "vhdl.autoconnect" false = true → ports.isEmpty = true) :
    Act.Yields (connectionsOf b.id (some ports)) w {} w := by
  refine Act.yields_bind.mpr ⟨b, w, Act.yields_buffer.mpr ⟨found, rfl⟩, ?_⟩
  cases wants : b.flag "vhdl.autoconnect" false with
  | false => exact Act.yields_pure.mpr ⟨rfl, rfl⟩
  | true =>
    simp only [unwanted wants, ↓reduceIte]
    exact Act.yields_pure.mpr ⟨rfl, rfl⟩

/-- The ports of a reported unit are connected exactly if the buffer does not want them to be, or has no
architecture, or has both a unit and an architecture; then every port has a link. -/
theorem connections_given_iff {w : Workspace} {b : Buffer} {s : Matching} {source unit : String}
    {j : Interface} (found : w.buffers.find? (·.id == b.id) = some b)
    (free : w.questions < Act.questionLimit) (wanted : matchingOf b = .ok s)
    (reported : interface? source unit = .ok (some j)) (named : ∀ d ∈ j.ports, isName d.name = true)
    (proper : ∀ i a, interface? b.contents anyName = .ok (some i) →
      architecture? b.contents anyName = .ok (some a) → ∀ name ∈ localNames i a, isName name = true) :
    (∃ c w', Act.Yields (connectionsOf b.id (some (j.ports.map (·.toEntry)))) w c w' ∧
        (b.flag "vhdl.autoconnect" false = true →
          (∃ a, architecture? b.contents anyName = .ok (some a)) →
            ∀ d ∈ j.ports, d.name ∈ c.links.map (·.1))) ↔
      (b.flag "vhdl.autoconnect" false = true → j.ports ≠ [] →
        architecture? b.contents anyName = .ok none ∨
          ∃ i a, interface? b.contents anyName = .ok (some i) ∧
            architecture? b.contents anyName = .ok (some a)) := by
  by_cases wants : b.flag "vhdl.autoconnect" false = true ∧ j.ports ≠ []
  swap
  · have none : b.flag "vhdl.autoconnect" false = true → j.ports = [] := by simpa using wants
    refine ⟨fun _ wants' some_port => absurd (none wants') some_port, fun _ => ⟨{}, w, ?_, ?_⟩⟩
    · exact connectionsOf_unwanted found fun wants => by simp [none wants]
    · intro wants' _ d member
      simp [none wants'] at member
  obtain ⟨wants, some_port⟩ := wants
  have nonempty : (j.ports.map (·.toEntry)).isEmpty = false := by simpa using some_port
  simp only [yields_connectionsOf found free wants nonempty, wants, some_port, ne_eq, not_false_eq_true,
    true_implies]
  constructor
  · rintro ⟨c, -, ⟨connected, -⟩, -⟩
    obtain ⟨a, architecture, connected⟩ := bind_eq_ok.mp connected
    cases a with
    | none => exact Or.inl architecture
    | some a =>
      obtain ⟨i, interface, connected⟩ := bind_eq_ok.mp connected
      cases i with
      | none => simp [throw, throwThe, MonadExceptOf.throw] at connected
      | some i => exact Or.inr ⟨i, a, interface, architecture⟩
  · rintro (none | ⟨i, a, interface, architecture⟩)
    · refine ⟨{}, _, ⟨bind_eq_ok.mpr ⟨_, none, rfl⟩, rfl⟩, ?_⟩
      rintro ⟨a, architecture⟩
      simp [none] at architecture
    · obtain ⟨c, connected, linked⟩ :=
        connect_total (s := s) reported named interface architecture (proper i a interface architecture)
      exact ⟨c, _, ⟨bind_eq_ok.mpr ⟨_, architecture, bind_eq_ok.mpr ⟨_, interface,
        bind_eq_ok.mpr ⟨s, wanted, connected⟩⟩⟩, rfl⟩, fun _ => linked⟩

/-- The clock of a unit is connected in a buffer with a unit and an architecture. -/
theorem connections_given_iff_bare :
    ∃ c w', Act.Yields (connectionsOf 1 (some [(inputBit "clk").toEntry])) { buffers := [bareBuffer] } c w' ∧
      "clk" ∈ c.links.map (·.1) := by
  obtain ⟨c, w', done, linked⟩ := (connections_given_iff (w := { buffers := [bareBuffer] })
    (b := bareBuffer) (s := { leads := ["i_"] }) rfl (by decide) rfl sub_read.2 (by decide) (by
      intro i a reported reported' name known
      obtain rfl := Option.some.inj (ok.inj (bare_read.1.symm.trans reported))
      obtain rfl := Option.some.inj (ok.inj (bare_read.2.symm.trans reported'))
      simp [localNames] at known)).mpr fun _ _ => Or.inr ⟨_, _, bare_read.1, bare_read.2⟩
  exact ⟨c, w', done, linked rfl ⟨_, bare_read.2⟩ _ mem_cons_self⟩

/-- The ports of a unit are not connected in a text with an architecture whose unit is elsewhere. -/
theorem connection_fails_without_unit :
    connectIn "architecture rtl of top is\nbegin\nend rtl;\n" (.ok {}) [(inputBit "clk").toEntry] =
      .error (.noEntry "'port'") := by decide +kernel

end VhdlWorkbench.Instantiate

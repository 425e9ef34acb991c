import VhdlWorkbench.Proofs.Texts
import VhdlWorkbench.Proofs.Tokens

/-!
Lists of names, and how a declaration reads them.
-/

namespace VhdlWorkbench.Declaration

open Pattern List Text

variable {m : Match} {listed : String} {d e : Declaration} {identifiers : List String}

theorem nonempty?_ofList {cs : List Char} (nonempty : cs ≠ []) :
    nonempty? (some (String.ofList cs)) = some (String.ofList cs) := by
  simp [nonempty?, nonempty]

/-- The shared parts of a declaration that its own word introduces and that has no direction and no value. -/
theorem shared_of_parts {tag type : List Char} (name : String) (undirected : m.named? "dir" = none)
    (unvalued : m.hasName "value" = false) (tagged : m.named? "tag" = some (String.ofList tag))
    (typed : m.named? "type" = some (String.ofList type)) (word : tag ≠ []) (letters : type ≠ []) :
    shared name m =
      { text := some "", type := some (String.ofList type), name := name, tag := toLower (String.ofList tag) } := by
  have direction : nonempty? none = none := rfl
  simp [shared, tagOf, directionOf, undirected, unvalued, tagged, typed, nonempty?_ofList word,
    nonempty?_ofList letters, direction]

theorem addIdentifier_fields (m : Match) (listed type identifier : String) (d : Declaration) :
    (addIdentifier m listed type identifier d).tag = d.tag ∧
      (addIdentifier m listed type identifier d).name = trim identifier := by
  unfold addIdentifier
  split
  · split
    · exact ⟨rfl, rfl⟩
    · exact ⟨rfl, rfl⟩
  · exact ⟨rfl, rfl⟩

theorem addIdentifier_typed (m : Match) (listed type identifier : String) (d : Declaration) :
    ∃ type', (addIdentifier m listed type identifier d).type = some type' := by
  unfold addIdentifier
  split
  · split
    · exact ⟨_, rfl⟩
    · exact ⟨_, rfl⟩
  · exact ⟨_, rfl⟩

theorem addIdentifiers_last (done : addIdentifiers m listed d identifiers = .ok e) (some : identifiers ≠ []) :
    ∃ type d', d'.tag = d.tag ∧ e = addIdentifier m listed type (identifiers.getLast some) d' := by
  induction identifiers generalizing d with
  | nil => exact absurd rfl some
  | cons identifier rest ih =>
    rw [addIdentifiers] at done
    split at done
    · simp at done
    · next type _ =>
      have kept := (addIdentifier_fields m listed type identifier d).1
      cases rest with
      | nil => exact ⟨type, d, rfl, (Except.ok.inj done).symm⟩
      | cons next rest =>
        obtain ⟨type', d', same, whole⟩ := ih done (cons_ne_nil next rest)
        exact ⟨type', d', same.trans kept, whole⟩

theorem addIdentifiers_total {type : String} (typed : d.type = some type) :
    ∃ e, addIdentifiers m listed d identifiers = .ok e := by
  induction identifiers generalizing d type with
  | nil => exact ⟨d, rfl⟩
  | cons identifier rest ih =>
    obtain ⟨type', typed'⟩ := addIdentifier_typed m listed type identifier d
    obtain ⟨e, done⟩ := ih typed'
    exact ⟨e, by rw [addIdentifiers, typed]; exact done⟩

end VhdlWorkbench.Declaration

namespace VhdlWorkbench.Design

open List

/-- A further name of a list with the blanks around it. -/
structure ListedName where
  before : Gap
  name : Identifier
  after : Gap

/-- Names separated by commas. -/
structure NameList where
  first : Identifier
  afterFirst : Gap
  others : List ListedName

def ListedName.text (n : ListedName) : List Char :=
  ',' :: (n.before.chars ++ (n.name.chars ++ n.after.chars))

namespace NameList

def names (l : NameList) : List Identifier :=
  l.first :: l.others.map (·.name)

def more (l : NameList) : List Char :=
  l.afterFirst.chars ++ l.others.flatMap ListedName.text

def text (l : NameList) : List Char :=
  l.first.chars ++ l.more

def last (l : NameList) : Identifier :=
  l.names.getLast (cons_ne_nil _ _)

theorem more_listed (l : NameList) :
    ∀ c ∈ l.more, Text.isBlank c = true ∨ Text.isWord c = true ∨ c = ',' := by
  intro c member
  rcases mem_append.mp member with blank | other
  · exact Or.inl (l.afterFirst.blank c blank)
  · obtain ⟨n, -, inside⟩ := mem_flatMap.mp other
    simp only [ListedName.text, mem_cons, mem_append] at inside
    rcases inside with rfl | before | letter | after
    · exact Or.inr (Or.inr rfl)
    · exact Or.inl (n.before.blank c before)
    · exact Or.inr (Or.inl (n.name.wordy c letter))
    · exact Or.inl (n.after.blank c after)

theorem others_head (l : NameList) : ∀ c, (l.others.flatMap ListedName.text).head? = some c → c = ',' := by
  cases l.others with
  | nil => simp
  | cons n others =>
    rintro c ⟨⟩
    rfl

theorem more_wordless_head (l : NameList) : Stops Text.isWord l.more := by
  apply l.afterFirst.wordless_head
  intro c head
  rw [l.others_head c head]
  decide

end NameList

def Gap.dropSpaces (g : Gap) : Gap :=
  ⟨g.chars.filter (· != ' '), fun c member => g.blank c (mem_filter.mp member).1⟩

def ListedName.dropSpaces (n : ListedName) : ListedName :=
  ⟨n.before.dropSpaces, n.name, n.after.dropSpaces⟩

theorem Identifier.filter_spaces (name : Identifier) : name.chars.filter (· != ' ') = name.chars := by
  rw [filter_eq_self]
  intro c member
  simpa using fun space : c = ' ' => name.not_mem (by decide) (space ▸ member)

theorem filter_others (others : List ListedName) :
    (others.flatMap ListedName.text).filter (· != ' ') =
      (others.map ListedName.dropSpaces).flatMap ListedName.text := by
  induction others with
  | nil => rfl
  | cons n others ih =>
    simp only [flatMap_cons, map_cons, filter_append, ih, ListedName.text,
      ListedName.dropSpaces, Gap.dropSpaces, filter_cons, n.name.filter_spaces]
    rfl

theorem trim_piece (before : Gap) (name : Identifier) (after : Gap) :
    Text.trim (String.ofList (before.chars ++ (name.chars ++ after.chars))) = String.ofList name.chars := by
  have solid {c : Char} (member : c ∈ name.chars) := Text.isBlank_of_isWord (name.wordy c member)
  exact Text.trim_blanks before.blank name.nonempty (fun c head => solid (mem_of_head? head))
    (fun c last => solid (mem_of_getLast? last)) after.blank

theorem Identifier.trim_chars (name : Identifier) :
    Text.trim (String.ofList name.chars) = String.ofList name.chars := by
  have trimmed := trim_piece noGap name noGap
  rwa [show noGap.chars = [] from rfl, nil_append, append_nil] at trimmed

theorem comma_not_mem (before : Gap) (name : Identifier) (after : Gap) :
    ',' ∉ before.chars ++ (name.chars ++ after.chars) := by
  simp only [mem_append, not_or]
  exact ⟨before.not_mem (by decide), name.not_mem (by decide), after.not_mem (by decide)⟩

theorem trim_split (others : List ListedName) (before : Gap) (name : Identifier) (after : Gap) :
    (Text.splitFrom ',' []
        (before.chars ++ (name.chars ++ (after.chars ++ others.flatMap ListedName.text)))).map Text.trim =
      String.ofList name.chars :: others.map fun n => String.ofList n.name.chars := by
  induction others generalizing before name after with
  | nil =>
    rw [flatMap_nil, append_nil, Text.splitFrom_single [] _ (comma_not_mem before name after),
      map_singleton, reverse_nil, nil_append, trim_piece]
    rfl
  | cons n others ih =>
    have cut : before.chars ++ (name.chars ++ (after.chars ++ (n :: others).flatMap ListedName.text)) =
        (before.chars ++ (name.chars ++ after.chars)) ++
          ',' :: (n.before.chars ++ (n.name.chars ++ (n.after.chars ++ others.flatMap ListedName.text))) := by
      simp [ListedName.text]
    rw [cut, Text.splitFrom_cut [] (comma_not_mem before name after), map_cons, reverse_nil,
      nil_append, trim_piece, map_cons, ih n.before n.name n.after]

theorem NameList.identifiers (l : NameList) :
    (Text.splitOn (Text.replaceChar (String.ofList l.text) ' ' "") ',').map Text.trim =
      l.names.map fun n => String.ofList n.chars := by
  have filtered : l.text.filter (· != ' ') =
      [] ++ (l.first.chars ++ (l.afterFirst.dropSpaces.chars ++
        (l.others.map ListedName.dropSpaces).flatMap ListedName.text)) := by
    simp only [text, more, filter_append, l.first.filter_spaces, filter_others,
      Gap.dropSpaces, nil_append]
  rw [Text.splitOn, Text.replaceChar_space, String.toList_ofList, filtered,
    trim_split _ ⟨[], forall_mem_nil _⟩]
  simp [names, ListedName.dropSpaces]

end VhdlWorkbench.Design

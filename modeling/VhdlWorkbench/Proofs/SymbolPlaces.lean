import VhdlWorkbench.Inspect.Symbol
import VhdlWorkbench.Proofs.Actions

/-!
Places of symbols: when the file, the row and the column that a lookup gives belong together.
-/

namespace VhdlWorkbench.Inspect

open Editor Editor.Act List

variable {w w' : Workspace} {id : Nat} {name : String} {r : Except Fault Pattern.Regex} {entries : List IndexEntry}

/-- A place is nowhere, or where an entry says; its file may be in the form of the platform. -/
inductive SymbolPlace.Consistent (platform : Files.Platform) (entries : List IndexEntry) (place : SymbolPlace) : Prop
  | nowhere (file : place.file = "") (row : place.row = -1) (col : place.col = -1)
  | ofEntry (e : IndexEntry) (member : e ∈ entries)
    (file : place.file = e.file ∨ place.file = Files.platformForm platform e.file)
    (row : place.row = e.row) (col : place.col = e.col)

theorem searchFiles_cases {start place : SymbolPlace} (given : Yields (searchFiles r entries start) w place w') :
    (∃ e ∈ entries, ∃ regex text m, r = .ok regex ∧ w.store.read (Files.platformForm w.platform e.file) = .ok text ∧
      regex.search? text = some m ∧ place = ⟨Files.platformForm w.platform e.file, e.row, e.col, some m⟩) ∨
    place = { start with file := (entries.getLast?.map (Files.platformForm w.platform ·.file)).getD start.file } := by
  induction entries generalizing start with
  | nil => exact .inr (yields_pure.mp given).1
  | cons e entries ih =>
    simp only [searchFiles, platformForm, sourceText, yields_bind, yields_get, yields_pure, yields_lift] at given
    obtain ⟨file, _, ⟨_, _, ⟨rfl, rfl⟩, rfl, rfl⟩, text, _, ⟨_, _, ⟨rfl, rfl⟩, read, rfl⟩, regex, _, ⟨ok, rfl⟩, given⟩ := given
    split at given
    · next m found =>
      exact .inl ⟨e, mem_cons_self, regex, text, m, ok, read, found, (yields_pure.mp given).1⟩
    · rcases ih given with ⟨e', member, found⟩ | last
      · exact .inl ⟨e', mem_cons_of_mem e member, found⟩
      · refine .inr (last.trans ?_)
        cases entries with
        | nil => rfl
        | cons d entries => simp [getLast?_cons]

/-- The place of the first entry for a file, without a match. -/
def ownPlace (platform : Files.Platform) (current : Option String) (entries : List IndexEntry) : SymbolPlace :=
  match entries.find? fun e => some (Files.platformForm platform e.file) == current with
  | none => {}
  | some e => { file := e.file, row := e.row, col := e.col }

/-- A file holds a text: the buffer does, if it is of the file, or the file does that is stored. -/
def FileHolds (w : Workspace) (b : Buffer) (file text : String) : Prop :=
  b.file = some (Files.platformForm w.platform file) ∧ b.contents = text ∨ w.store.read file = .ok text

section Lookup

variable {b : Buffer} {place : SymbolPlace} (shown : w.buffers.find? (·.id == id) = some b)
  (listed : (w.index.lookup name).getD [] = entries) (given : Yields (lookupSymbol id name r) w place w')

include shown listed given

/-- The lookup ends in the buffer, or it goes on to the files of the index. -/
theorem lookupSymbol_cases :
    (∃ e ∈ entries, b.file = some (Files.platformForm w.platform e.file) ∧ ∃ regex m, r = .ok regex ∧
      regex.search? b.contents = some m ∧ place = ⟨e.file, e.row, e.col, some m⟩) ∨
    ∃ v, v.store = w.store ∧ v.platform = w.platform ∧
      Yields (searchFiles r entries (ownPlace w.platform b.file entries)) v place w' := by
  unfold ownPlace
  simp only [lookupSymbol, symbolEntries, yields_bind, yields_get, yields_pure, yields_buffer, shown,
    Option.some.injEq] at given
  obtain ⟨_, _, ⟨rfl, rfl⟩, _, _, ⟨_, _, ⟨rfl, rfl⟩, rfl, rfl⟩, _, w, ⟨rfl, rfl⟩, given⟩ := given
  rw [listed] at given
  cases own : entries.find? fun e => some (Files.platformForm w.platform e.file) == b.file with
  | none =>
    rw [own] at given
    exact .inr ⟨w, rfl, rfl, given⟩
  | some e =>
    rw [own] at given
    have file : some (Files.platformForm w.platform e.file) = b.file := by simpa using find?_some own
    simp only [yields_bind, yields_contents, yields_lift, yields_pure, shown] at given
    obtain ⟨_, _, ⟨_, ⟨⟩, rfl, -, rfl⟩, regex, _, ⟨ok, rfl⟩, _, _, ⟨rfl, rfl⟩, given⟩ := given
    cases found : regex.search? b.contents with
    | some m =>
      simp only [found, yields_pure] at given
      exact .inl ⟨e, mem_of_find?_eq_some own, file.symm, regex, m, ok, found, given.1⟩
    | none =>
      rw [found] at given
      exact .inr ⟨{ w with questions := w.questions + 1 }, rfl, rfl, given⟩

/-- A place with a match is consistent and the match is one of its file. A place without a match has the last file of
the index; it is consistent exactly if the place in the file of the buffer, or none, is so for that file. -/
theorem lookupSymbol_place_iff :
    (∀ m, place.found = some m → place.Consistent w.platform entries ∧
      ∃ regex text, r = .ok regex ∧ regex.search? text = some m ∧ FileHolds w b place.file text) ∧
    (place.found = none → (place.Consistent w.platform entries ↔ ∀ last ∈ entries.getLast?,
      SymbolPlace.Consistent w.platform entries
        { ownPlace w.platform b.file entries with file := Files.platformForm w.platform last.file })) := by
  have unfound : (ownPlace w.platform b.file entries).found = none := by
    unfold ownPlace
    split <;> rfl
  rcases lookupSymbol_cases shown listed given with ⟨e, member, file, regex, m, ok, found, rfl⟩ | ⟨v, store, platform, given⟩
  · refine ⟨?_, nofun⟩
    rintro _ ⟨⟩
    exact ⟨.ofEntry e member (.inl rfl) rfl rfl, regex, _, ok, found, .inl ⟨file, rfl⟩⟩
  · have cases := searchFiles_cases given
    rw [store, platform] at cases
    rcases cases with ⟨e, member, regex, text, m, ok, read, found, rfl⟩ | rfl
    · refine ⟨?_, nofun⟩
      rintro _ ⟨⟩
      exact ⟨.ofEntry e member (.inr rfl) rfl rfl, regex, text, ok, found, .inr read⟩
    · refine ⟨fun m found => by simp [unfound] at found, fun _ => ?_⟩
      cases entries with
      | nil => exact iff_of_true (.nowhere rfl rfl rfl) (by simp)
      | cons e entries => simp [getLast?_cons]

end Lookup

/-- A buffer of an indexed file, with a second file of the index. -/
def twoEntries (text : String) : Workspace :=
  { buffers := [{ id := 1, file := some "a" }]
    index := [("u", [⟨"a", "", 5, 5⟩, ⟨"b", "", 1, 1⟩])]
    store := ⟨[("a", ⟨"", 0⟩), ("b", ⟨text, 0⟩)]⟩ }

def letterU : Pattern.Regex :=
  Pattern.Regex.ofNode {} (Pattern.Node.lit "u")

/-- The second file has the match. -/
theorem lookupSymbol_place_iff_second : ∃ place,
    Yields (lookupSymbol 1 "u" (.ok letterU)) (twoEntries "u") place { twoEntries "u" with questions := 1 } ∧
      place.found.isSome ∧ place.Consistent .linux [⟨"a", "", 5, 5⟩, ⟨"b", "", 1, 1⟩] := by
  refine ⟨⟨"b", 1, 1, letterU.search? "u"⟩, ?_⟩
  have given : Yields (lookupSymbol 1 "u" (.ok letterU)) (twoEntries "u") ⟨"b", 1, 1, letterU.search? "u"⟩
      { twoEntries "u" with questions := 1 } := by
    with_unfolding_all rfl
  exact ⟨given, by decide, ((lookupSymbol_place_iff rfl rfl given).1 _ rfl).1⟩

/-- No file has a match: the place has the file of the second entry, and the row and column of the first. -/
theorem lookupSymbol_mixes_entries : ∃ place,
    Yields (lookupSymbol 1 "u" (.ok letterU)) (twoEntries "") place { twoEntries "" with questions := 1 } ∧
      ¬place.Consistent .linux [⟨"a", "", 5, 5⟩, ⟨"b", "", 1, 1⟩] := by
  refine ⟨⟨"b", 5, 5, none⟩, by with_unfolding_all rfl, ?_⟩
  rintro (⟨file, -, -⟩ | ⟨e, member, file, row, -⟩)
  · simp at file
  · obtain rfl | rfl : e = ⟨"a", "", 5, 5⟩ ∨ e = ⟨"b", "", 1, 1⟩ := by simpa using member
    · simp [Files.platformForm] at file
    · simp at row

end VhdlWorkbench.Inspect

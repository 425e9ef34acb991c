import Mathlib.Data.List.TakeWhile
import VhdlWorkbench.Inspect.Unit
import VhdlWorkbench.Proofs.Actions
import VhdlWorkbench.Proofs.Captures

/-!
The header that names the unit at the cursor. The kinds of headers are looked through one after the other,
so it depends on the headers of the other kinds whether the nearest header is reached.
-/

namespace VhdlWorkbench.Inspect

open Editor Editor.Act Pattern Pattern.Node List

variable {b : Buffer} {p : Int} {r : Regex} {g h : Int × String × String}

/-- Of the headers of all kinds, the last that begins before a place. -/
structure Nearest (b : Buffer) (p : Int) (h : Int × String × String) : Prop where
  listed : h ∈ unitHeaders.flatMap (headersOf b)
  before : h.1 < p
  last : ∀ g ∈ unitHeaders.flatMap (headersOf b), g.1 < p → g.1 ≤ h.1

instance (b : Buffer) (p : Int) (h : Int × String × String) : Decidable (Nearest b p h) :=
  decidable_of_iff (h ∈ unitHeaders.flatMap (headersOf b) ∧ h.1 < p ∧
    ∀ g ∈ unitHeaders.flatMap (headersOf b), g.1 < p → g.1 ≤ h.1)
    ⟨fun ⟨listed, before, last⟩ => ⟨listed, before, last⟩, fun ⟨listed, before, last⟩ => ⟨listed, before, last⟩⟩

theorem pairwise_headersOf (b : Buffer) (listed : r ∈ unitHeaders) : (headersOf b r).Pairwise (·.1 < ·.1) := by
  have consumes : ∀ r ∈ unitHeaders, 0 < (r.node.width []).1 := by decide
  exact pairwise_map.mpr ((Regex.pairwise_matchesFrom (consumes r listed) ..).imp Int.ofNat_lt.mpr)

theorem length_kind {word : String} (body : r.node.always 1 = some (lit word)) (room : 1 < r.slots)
    (member : g ∈ headersOf b r) : g.2.1.length = word.length := by
  obtain ⟨m, found, rfl⟩ := mem_map.mp member
  have listed : m ∈ r.matches_ b.contents := by
    simpa [Regex.matches_, Buffer.contents, Buffer.findAll, Buffer.size] using found
  obtain ⟨u, u', passed, text⟩ := Regex.group_of_mem 1 listed body room Nat.one_pos
  obtain ⟨stands, rfl⟩ := reaches_lit passed
  obtain ⟨cs, tail, here, pairs⟩ := (wordStandsAt_iff _ _).mp stands
  have length : cs.length = word.length := by rw [← pairs.length_eq, String.length_toList]
  rw [text, ← length, segment_of_textFrom here, String.length_ofList]

theorem pairwise_kinds (b : Buffer) : unitHeaders.Pairwise fun r r' =>
    ∀ g ∈ headersOf b r, ∀ g' ∈ headersOf b r', g.2 ≠ g'.2 := by
  have apart {r r' : Regex} {u v : String} (body : r.node.always 1 = some (lit u)) (room : 1 < r.slots)
      (body' : r'.node.always 1 = some (lit v)) (room' : 1 < r'.slots) (differ : u.length ≠ v.length) :
      ∀ g ∈ headersOf b r, ∀ g' ∈ headersOf b r', g.2 ≠ g'.2 := by
    intro g member g' member' same
    rw [← length_kind body room member, ← length_kind body' room' member', same] at differ
    exact differ rfl
  simp only [unitHeaders, pairwise_cons, mem_cons, not_mem_nil, or_false, forall_eq_or_imp, forall_eq, Pairwise.nil]
  exact ⟨⟨apart (u := "entity") (v := "architecture") rfl (by decide) rfl (by decide) (by decide),
    apart (u := "entity") (v := "package") rfl (by decide) rfl (by decide) (by decide)⟩,
    apart (u := "architecture") (v := "package") rfl (by decide) rfl (by decide) (by decide), by simp⟩

variable {front rest : List (Int × String × String)}

theorem unitAt_of_split (headers : unitHeaders.flatMap (headersOf b) = front ++ h :: rest)
    (ahead : ∀ g ∈ front, g.1 < p) (before : h.1 < p) (next : ∀ g ∈ rest.head?, p ≤ g.1) : unitAt b p = h.2 := by
  have none : rest.takeWhile (fun g => decide (g.1 < p)) = [] := by
    cases rest with
    | nil => rfl
    | cons g rest => exact takeWhile_cons_of_neg (by simpa using next g rfl)
  have taken : (front ++ h :: rest).takeWhile (fun g => decide (g.1 < p)) = front ++ [h] := by
    rw [takeWhile_append_of_pos (by simpa using ahead), takeWhile_cons_of_pos (by simpa using before), none]
  simp only [unitAt, headers, lastBefore, taken, getLast?_concat, Option.map_some]

/-- A header of the front part that does not begin before the place keeps the choice in the front part. -/
theorem unitAt_of_front (headers : unitHeaders.flatMap (headersOf b) = front ++ rest)
    (stops : ∃ g ∈ front, p ≤ g.1) : ∃ g ∈ front, unitAt b p = g.2 := by
  obtain ⟨g, member, behind⟩ := stops
  have short : (front.takeWhile fun g => decide (g.1 < p)).length ≠ front.length := by
    intro whole
    rw [← ( takeWhile_prefix _).eq_of_length whole] at member
    have before := mem_takeWhile_imp member
    exact absurd behind (by simpa using before)
  have taken : (front ++ rest).takeWhile (fun g => decide (g.1 < p)) = front.takeWhile fun g => decide (g.1 < p) := by
    rw [takeWhile_append, if_neg short]
  simp only [unitAt, headers, lastBefore, taken]
  cases last : (front.takeWhile fun g => decide (g.1 < p)).getLast? with
  | some g => exact ⟨g, ( takeWhile_prefix _).subset (mem_of_getLast? last), rfl⟩
  | none =>
    obtain ⟨first, others, rfl⟩ := exists_cons_of_ne_nil (ne_nil_of_mem member)
    exact ⟨first, mem_cons_self, rfl⟩

theorem unitAt_of_back (headers : unitHeaders.flatMap (headersOf b) = front ++ h :: rest)
    (ahead : ∀ g ∈ front, g.1 < p) (before : h.1 < p) : ∃ g ∈ h :: rest, unitAt b p = g.2 := by
  have taken : (front ++ h :: rest).takeWhile (fun g => decide (g.1 < p)) =
      front ++ h :: rest.takeWhile fun g => decide (g.1 < p) := by
    rw [takeWhile_append_of_pos (by simpa using ahead), takeWhile_cons_of_pos (by simpa using before)]
  obtain ⟨g, last⟩ := Option.isSome_iff_exists.mp (getLast?_isSome.mpr (cons_ne_nil h (rest.takeWhile fun g => decide (g.1 < p))))
  refine ⟨g, cons_subset_cons h (takeWhile_subset _) (mem_of_getLast? last), ?_⟩
  simp only [unitAt, headers, lastBefore, taken, getLast?_append, last, Option.some_or, Option.map_some]

/-- The unit named at the cursor is that of the nearest header unless a header of an earlier kind begins
behind the cursor, or the nearest header is the last of its kind and the first one of the later kinds
begins before the cursor. -/
theorem unitAtCursor_nearest_iff {w : Workspace} {id : Nat} {cursor : Region} {earlier later : List Regex}
    {kind : Regex} (there : w.buffers.find? (·.id == id) = some b) (cursorAt : b.cursor = .ok cursor)
    (kinds : unitHeaders = earlier ++ kind :: later) (own : h ∈ headersOf b kind) (nearest : Nearest b cursor.a h) :
    Yields (unitAtCursor id) w h.2 w ↔
      (∀ g ∈ earlier.flatMap (headersOf b), g.1 < cursor.a) ∧
        ((∃ g ∈ headersOf b kind, cursor.a ≤ g.1) ∨ ∀ g ∈ (later.flatMap (headersOf b)).head?, cursor.a ≤ g.1) := by
  have answer : Yields (unitAtCursor id) w h.2 w ↔ unitAt b cursor.a = h.2 := by
    simp only [unitAtCursor, yields_bind, yields_buffer, yields_lift, yields_pure, there]
    grind
  have headers : unitHeaders.flatMap (headersOf b) =
      earlier.flatMap (headersOf b) ++ (headersOf b kind ++ later.flatMap (headersOf b)) := by
    rw [kinds, flatMap_append, flatMap_cons]
  have apart := pairwise_kinds b
  rw [kinds, pairwise_append, pairwise_cons] at apart
  obtain ⟨-, ⟨laterApart, -⟩, earlierApart⟩ := apart
  rw [answer]
  constructor
  · intro chosen
    have ahead : ∀ g ∈ earlier.flatMap (headersOf b), g.1 < cursor.a := by
      intro g member
      by_contra behind
      obtain ⟨g', member', chosen'⟩ := unitAt_of_front headers ⟨g, member, Int.not_lt.mp behind⟩
      obtain ⟨kind', listed, member'⟩ := mem_flatMap.mp member'
      exact earlierApart kind' listed kind mem_cons_self g' member' h own (chosen'.symm.trans chosen)
    refine ⟨ahead, or_iff_not_imp_left.mpr fun last g first => ?_⟩
    by_contra before
    obtain ⟨others, back⟩ := head?_eq_some_iff.mp first
    rw [back, ← append_assoc] at headers
    have passed : ∀ g ∈ earlier.flatMap (headersOf b) ++ headersOf b kind, g.1 < cursor.a := by
      intro g member
      rcases mem_append.mp member with front | same
      · exact ahead g front
      · exact Int.not_le.mp fun behind => last ⟨g, same, behind⟩
    obtain ⟨g', member', chosen'⟩ := unitAt_of_back headers passed (Int.not_le.mp before)
    rw [← back] at member'
    obtain ⟨kind', listed, member'⟩ := mem_flatMap.mp member'
    exact laterApart kind' listed h own g' member' (chosen.symm.trans chosen')
  · rintro ⟨ahead, next⟩
    have listed : kind ∈ unitHeaders := by simp [kinds]
    obtain ⟨same, others, split⟩ := append_of_mem own
    have sorted := pairwise_headersOf b listed
    rw [split, pairwise_append, pairwise_cons] at sorted
    obtain ⟨-, ⟨rising, -⟩, lower⟩ := sorted
    rw [split, append_assoc, ← append_assoc, cons_append] at headers
    refine unitAt_of_split headers ?_ nearest.before ?_
    · intro g member
      rcases mem_append.mp member with front | same
      · exact ahead g front
      · exact Int.lt_trans (lower g same h mem_cons_self) nearest.before
    · cases others with
      | nil =>
        refine next.resolve_left ?_
        rintro ⟨g, member, behind⟩
        rw [split] at member
        rcases mem_append.mp member with before | last
        · exact absurd (Int.lt_trans (lower g before h mem_cons_self) nearest.before) (Int.not_lt.mpr behind)
        · exact absurd nearest.before (Int.not_lt.mpr (mem_singleton.mp last ▸ behind))
      | cons g others =>
        rintro g' ⟨⟩
        by_contra before
        have member : g ∈ unitHeaders.flatMap (headersOf b) := mem_flatMap.mpr ⟨kind, listed, by simp [split]⟩
        exact absurd (rising g mem_cons_self) (Int.not_lt.mpr (nearest.last g member (Int.not_le.mp before)))

def threeUnits : Buffer :=
  { id := 1, text := "entity e\narchitecture a of e\npackage p\n".toList.toArray, selection := [⟨20, 20⟩] }

theorem unitAtCursor_nearest_iff_architecture :
    ([threeUnits].find? (·.id == 1) = some threeUnits ∧ threeUnits.cursor = .ok ⟨20, 20⟩ ∧
      unitHeaders = unitHeaders.take 1 ++ unitHeaders[1] :: unitHeaders.drop 2 ∧
      (9, "architecture", "e") ∈ headersOf threeUnits unitHeaders[1] ∧
      Nearest threeUnits 20 (9, "architecture", "e")) ∧
    Yields (unitAtCursor 1) { buffers := [threeUnits] } ("architecture", "e") { buffers := [threeUnits] } := by
  have own : (9, "architecture", "e") ∈ headersOf threeUnits unitHeaders[1] := by decide +kernel
  have nearest : Nearest threeUnits 20 (9, "architecture", "e") := by decide +kernel
  have kinds : unitHeaders = unitHeaders.take 1 ++ unitHeaders[1] :: unitHeaders.drop 2 := rfl
  exact ⟨⟨rfl, rfl, kinds, own, nearest⟩, (unitAtCursor_nearest_iff rfl rfl kinds own nearest).mpr (by decide +kernel)⟩

/-- With the cursor in a package and an entity behind it, the unit is the entity. -/
theorem unitAtCursor_behind_cursor : ∃ b : Buffer, b.contents = "package p is\nend;\nentity e is\nend;\n" ∧
    Nearest b 14 (0, "package", "p") ∧ unitAt b 14 = ("entity", "e") :=
  ⟨{ id := 1, text := "package p is\nend;\nentity e is\nend;\n".toList.toArray }, by decide +kernel⟩

end VhdlWorkbench.Inspect

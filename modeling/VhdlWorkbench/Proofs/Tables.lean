import VhdlWorkbench.Table

/-!
What a table holds after entries have been put into it.
-/

namespace VhdlWorkbench.Table

open List Option

variable {κ α : Type} [BEq κ] [LawfulBEq κ]

theorem mem_put {table : List (κ × α)} {key : κ} {value : α} {entry : κ × α} :
    entry ∈ put table key value ↔ entry = (key, value) ∨ entry ∈ table ∧ entry.1 ≠ key := by
  unfold put
  split
  · next present =>
    obtain ⟨old, member, same⟩ := any_eq_true.mp present
    rw [List.mem_map]
    constructor
    · rintro ⟨other, inside, rfl⟩
      by_cases equal : other.1 = key
      · exact Or.inl (if_pos (beq_iff_eq.mpr equal))
      · rw [if_neg (mt beq_iff_eq.mp equal)]
        exact Or.inr ⟨inside, equal⟩
    · rintro (rfl | ⟨inside, different⟩)
      · exact ⟨old, member, if_pos same⟩
      · exact ⟨entry, inside, if_neg (mt beq_iff_eq.mp different)⟩
  · next absent =>
    have fresh : ∀ other ∈ table, other.1 ≠ key := by
      intro other inside equal
      exact absent (any_eq_true.mpr ⟨other, inside, beq_iff_eq.mpr equal⟩)
    rw [mem_append, mem_singleton]
    constructor
    · rintro (inside | new)
      · exact Or.inr ⟨inside, fresh entry inside⟩
      · exact Or.inl new
    · rintro (new | ⟨inside, -⟩)
      · exact Or.inr new
      · exact Or.inl inside

theorem mem_keys_put {table : List (κ × α)} {key other : κ} {value : α} :
    other ∈ (put table key value).map (·.1) ↔ other = key ∨ other ∈ table.map (·.1) := by
  simp only [List.mem_map, mem_put]
  constructor
  · rintro ⟨entry, rfl | ⟨inside, -⟩, rfl⟩
    · exact Or.inl rfl
    · exact Or.inr ⟨entry, inside, rfl⟩
  · rintro (rfl | ⟨entry, inside, rfl⟩)
    · exact ⟨(other, value), Or.inl rfl, rfl⟩
    · by_cases equal : entry.1 = key
      · exact ⟨(key, value), Or.inl rfl, equal.symm⟩
      · exact ⟨entry, Or.inr ⟨inside, equal⟩, rfl⟩

theorem lookup_isSome_iff {table : List (κ × α)} {key : κ} :
    (table.lookup key).isSome = true ↔ key ∈ table.map (·.1) := by
  rw [List.lookup_isSome_iff, List.mem_map]
  exact exists_congr fun entry => and_congr_right fun _ => beq_iff_eq.trans eq_comm

theorem mem_of_lookup {table : List (κ × α)} {key : κ} {value : α}
    (found : table.lookup key = some value) : (key, value) ∈ table := by
  obtain ⟨before, after, rfl, -⟩ := lookup_eq_some_iff.mp found
  simp

theorem lookup_of_mem {table : List (κ × α)} {key : κ} {value : α} (keys : (table.map (·.1)).Nodup)
    (member : (key, value) ∈ table) : table.lookup key = some value := by
  induction table with
  | nil => exact absurd member not_mem_nil
  | cons entry table ih =>
    obtain ⟨fresh, keys⟩ := nodup_cons.mp (map_cons ▸ keys)
    rcases mem_cons.mp member with rfl | later
    · exact lookup_cons_self
    · have other : key ≠ entry.1 := by
        rintro rfl
        exact fresh (mem_map.mpr ⟨(entry.1, value), later, rfl⟩)
      rw [lookup_cons, beq_eq_false_iff_ne.mpr other]
      exact ih keys later

theorem lookup_perm {table table' : List (κ × α)} (keys : (table.map (·.1)).Nodup)
    (perm : table.Perm table') (key : κ) : table'.lookup key = table.lookup key := by
  have keys' : (table'.map (·.1)).Nodup := (perm.map (·.1)).nodup_iff.mp keys
  apply ext
  intro value
  constructor
  · intro found
    exact lookup_of_mem keys (perm.mem_iff.mpr (mem_of_lookup found))
  · intro found
    exact lookup_of_mem keys' (perm.mem_iff.mp (mem_of_lookup found))

theorem lookup_overwrite {table : List (κ × α)} {key other : κ} {value : α} :
    (table.map fun entry => if entry.1 == key then (key, value) else entry).lookup other =
      if other == key then (if table.any (·.1 == key) then some value else none) else table.lookup other := by
  induction table with
  | nil => simp
  | cons entry table ih =>
    rw [map_cons, lookup_cons, ih, any_cons, lookup_cons]
    by_cases same : entry.1 = key
    · by_cases own : other = key
      · simp [same, own]
      · simp [same, beq_eq_false_iff_ne.mpr own]
    · have apart := beq_eq_false_iff_ne.mpr same
      by_cases own : other = key
      · subst own
        simp only [apart, beq_eq_false_iff_ne.mpr (Ne.symm same), Bool.false_or, Bool.false_eq_true,
          ↓reduceIte, beq_self_eq_true]
      · simp [apart, beq_eq_false_iff_ne.mpr own]

theorem lookup_put {table : List (κ × α)} {key other : κ} {value : α} :
    (put table key value).lookup other = if other == key then some value else table.lookup other := by
  unfold put
  split
  · next present => rw [lookup_overwrite, if_pos present]
  · next absent =>
    have fresh : table.lookup key = none := by
      rw [← not_isSome_iff_eq_none, lookup_isSome_iff]
      rintro member
      obtain ⟨entry, inside, rfl⟩ := mem_map.mp member
      exact absent (any_eq_true.mpr ⟨entry, inside, beq_self_eq_true _⟩)
    rw [lookup_append, lookup_cons]
    by_cases own : other = key
    · simp [own, fresh]
    · simp [beq_eq_false_iff_ne.mpr own]

theorem put_fresh {table : List (κ × α)} {key : κ} (fresh : key ∉ table.map (·.1)) (value : α) :
    put table key value = table ++ [(key, value)] := by
  refine if_neg fun present => fresh ?_
  obtain ⟨entry, inside, same⟩ := any_eq_true.mp present
  exact beq_iff_eq.mp same ▸ mem_map_of_mem inside

omit [LawfulBEq κ] in
theorem length_le_put (table : List (κ × α)) (key : κ) (value : α) :
    table.length ≤ (put table key value).length := by
  unfold put
  split
  · exact Nat.le_of_eq (length_map _).symm
  · rw [length_append]
    exact Nat.le_add_right _ _

section PutAll

variable {key : α → κ}

theorem mem_putAll {values : List α} {table : List (κ × α)} {entry : κ × α}
    (member : entry ∈ putAll key table values) :
    entry ∈ table ∨ entry.2 ∈ values ∧ key entry.2 = entry.1 := by
  induction values generalizing table with
  | nil => exact Or.inl member
  | cons value values ih =>
    rcases ih member with earlier | ⟨inside, same⟩
    · rcases mem_put.mp earlier with rfl | ⟨inside, -⟩
      · exact Or.inr ⟨mem_cons_self, rfl⟩
      · exact Or.inl inside
    · exact Or.inr ⟨mem_cons_of_mem _ inside, same⟩

theorem mem_keys_putAll {values : List α} {table : List (κ × α)} {other : κ} :
    other ∈ (putAll key table values).map (·.1) ↔
      other ∈ table.map (·.1) ∨ ∃ value ∈ values, key value = other := by
  induction values generalizing table with
  | nil => simp [putAll]
  | cons value values ih =>
    rw [show putAll key table (value :: values) = putAll key (put table (key value) value) values from rfl,
      ih, mem_keys_put]
    simp only [mem_cons, or_and_right, exists_or, exists_eq_left]
    constructor
    · rintro ((rfl | inside) | later)
      · exact Or.inr (Or.inl rfl)
      · exact Or.inl inside
      · exact Or.inr (Or.inr later)
    · rintro (inside | rfl | later)
      · exact Or.inl (Or.inr inside)
      · exact Or.inl (Or.inl rfl)
      · exact Or.inr later

end PutAll

end VhdlWorkbench.Table

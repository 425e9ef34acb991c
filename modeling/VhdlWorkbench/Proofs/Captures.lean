import VhdlWorkbench.Proofs.Scan

/-!
What the groups of a match hold: stretches of the text that the groups' own patterns have passed.
-/

namespace VhdlWorkbench.Pattern

open List Option String Array Match

variable {p : Node} {name : String}

/-- The pattern of a group, if every way through the pattern passes the group. -/
def Node.always (slot : Nat) : Node → Option Node
  | .capture own _ body => if own = slot then some body else body.always slot
  | .seq a b => if slot ∈ b.captures then b.always slot else a.always slot
  | .group body => body.always slot
  | _ => none

theorem Reaches.span_of_always {text : Array Char} {o : Options} {body : Node} {slot : Nat} {t t' : Thread}
    (reached : Reaches text p o t t') (always : p.always slot = some body) (room : slot < t.spans.size) :
    ∃ u u', Reaches text body o u u' ∧ t'.spans[slot]? = some (some (u.pos, u'.pos)) := by
  induction p generalizing t t' with
  | capture own name inner ih =>
    obtain ⟨u, passed, rfl⟩ := reached
    simp only [Node.always] at always
    split at always
    · next same =>
      obtain rfl := some.inj always
      rw [← passed.spans_size, ← same] at room
      exact ⟨t, u, passed, by rw [← same, getElem?_setIfInBounds_self_of_lt room]⟩
    · next other =>
      obtain ⟨v, v', inside, span⟩ := ih passed always room
      exact ⟨v, v', inside, by rw [getElem?_setIfInBounds_ne other, span]⟩
  | seq a b iha ihb =>
    obtain ⟨m, front, back⟩ := reached
    simp only [Node.always] at always
    split at always
    · exact ihb back always (by rwa [front.spans_size])
    · next free =>
      obtain ⟨u, u', inside, span⟩ := iha front always room
      exact ⟨u, u', inside, by rw [back.span_eq free, span]⟩
  | group inner ih => exact ih reached always room
  | _ => simp [Node.always] at always

namespace Regex

variable {r : Regex} {body : Node} {s : String} {m : Match}

theorem group_of_mem (slot : Nat) (found : m ∈ r.matches_ s) (always : r.node.always slot = some body)
    (room : slot < r.slots) (positive : 0 < slot) : ∃ u u', Reaches s.toList.toArray body r.options u u' ∧
      m.group slot = ofList (segment s.toList.toArray u.pos u'.pos) := by
  obtain ⟨_, _, matched⟩ := exists_matchAt_of_mem found
  obtain ⟨t, reached, rfl⟩ := matchAt_reaches matched
  obtain ⟨u, u', passed, span⟩ := reached.span_of_always always (by simpa using room)
  refine ⟨u, u', passed, ?_⟩
  simp only [group, group?, span?, Nat.ne_of_gt positive, ↓reduceIte, span, join_some,
    map_some, getD_some]

/-- The pattern of a named group that every match passes. -/
def part? (r : Regex) (name : String) : Option Node :=
  (r.names.lookup name).bind fun slot => if 0 < slot && slot < r.slots then r.node.always slot else none

theorem named_of_part {text : Array Char} {pos : Nat} {b : Bool}
    (found : r.matchAt text pos b = some m) (part : r.part? name = some body) :
    ∃ u u', Reaches text body r.options u u' ∧ m.named? name = some (ofList (segment text u.pos u'.pos)) := by
  obtain ⟨t, reached, rfl⟩ := matchAt_reaches found
  obtain ⟨slot, listed, always⟩ := bind_eq_some_iff.mp part
  split at always
  · next bounds =>
    simp only [Bool.and_eq_true, decide_eq_true_eq] at bounds
    obtain ⟨u, u', passed, span⟩ := reached.span_of_always always (by simpa using bounds.2)
    refine ⟨u, u', passed, ?_⟩
    simp [named?, listed, group?, span?, Nat.ne_of_gt bounds.1, span]
  · simp at always

theorem named_of_mem (found : m ∈ r.matches_ s) (part : r.part? name = some body) :
    ∃ u u', Reaches s.toList.toArray body r.options u u' ∧
      m.named? name = some (ofList (segment s.toList.toArray u.pos u'.pos)) := by
  obtain ⟨_, _, matched⟩ := exists_matchAt_of_mem found
  exact named_of_part matched part

end Regex

variable {text : Array Char} {slot : Nat} {t t' : Thread}

/-- The span of a group is left as it was, or set to a stretch that one of the group's patterns has passed. -/
theorem Reaches.sets (slot : Nat) {o : Options} (reached : Reaches text p o t t') :
    t'.spans[slot]? = t.spans[slot]? ∨ ∃ body ∈ p.bodies slot, ∃ o u u', Reaches text body o u u' ∧
      t'.spans[slot]? = some (some (u.pos, u'.pos)) := by
  refine reached.spans_rel (R := fun x y => y[slot]? = x[slot]? ∨ ∃ body ∈ p.bodies slot, ∃ o u u',
    Reaches text body o u u' ∧ y[slot]? = some (some (u.pos, u'.pos))) (fun _ => Or.inl rfl) ?_ ?_
  · rintro x y z first (same | set)
    · rwa [same]
    · exact Or.inr set
  · intro own body member o u u' passed
    by_cases same : own = slot
    · subst same
      by_cases room : own < u'.spans.size
      · exact Or.inr ⟨body, member, o, u, u', passed, getElem?_setIfInBounds_self_of_lt room⟩
      · exact Or.inl (by rw [setIfInBounds_eq_of_size_le (by omega)])
    · exact Or.inl (getElem?_setIfInBounds_ne same)

/-- What a named group of a match holds was passed by one of the patterns of the group. -/
theorem Regex.named_of_matchAt {r : Regex} {pos : Nat} {m : Match} {part : String}
    {b : Bool} (found : r.matchAt text pos b = some m) (listed : r.names.lookup name = some slot) (positive : 0 < slot)
    (held : m.named? name = some part) : ∃ body ∈ r.node.bodies slot, ∃ o u u', Reaches text body o u u' ∧
      part = ofList (segment text u.pos u'.pos) := by
  obtain ⟨t, reached, rfl⟩ := matchAt_reaches found
  simp only [named?, listed, bind_some, group?, span?, Nat.ne_of_gt positive, ↓reduceIte,
    map_eq_some_iff] at held
  obtain ⟨span, taken, rfl⟩ := held
  rcases reached.sets slot with none | ⟨body, member, o, u, u', passed, set⟩
  · rw [none, Array.getElem?_replicate] at taken
    split at taken <;> simp at taken
  · rw [set] at taken
    cases taken
    exact ⟨body, member, o, u, u', passed, rfl⟩

end VhdlWorkbench.Pattern

/-!
Tables of code points, as closed ranges in increasing order.
-/

namespace VhdlWorkbench.Text

/-- Ranges behind the code point `last`. A range is given by two numbers: how far its first code point stands behind the last
one of the range before it, and how many more code points it holds. -/
def rangesFrom (last : Nat) : List Nat → List (Nat × Nat)
  | gap :: more :: rest => (last + gap, last + gap + more) :: rangesFrom (last + gap + more) rest
  | _ => []

def inRanges (ranges : List (Nat × Nat)) (n : Nat) : Bool :=
  ranges.any fun range => range.1 ≤ n && n ≤ range.2

theorem inRanges_iff (ranges : List (Nat × Nat)) (n : Nat) :
    inRanges ranges n = true ↔ ∃ range ∈ ranges, range.1 ≤ n ∧ n ≤ range.2 := by
  simp [inRanges]

/-- What holds of all characters of a list is decided on the list, not by going through all characters. -/
instance decidableForallMem (p : Char → Prop) [DecidablePred p] (cs : List Char) :
    Decidable (∀ c ∈ cs, p c) :=
  List.decidableBAll p cs

end VhdlWorkbench.Text

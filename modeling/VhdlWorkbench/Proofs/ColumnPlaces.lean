import Mathlib.Algebra.Order.Ring.Rat
import Mathlib.Data.List.Chain
import Mathlib.Tactic.Linarith
import Mathlib.Tactic.NormNum
import VhdlWorkbench.Outline.Columns

/-!
The places of the columns when one is added at the right end. Each column gives up the same width, whatever its own
width is, so a narrow column is left with less than none. The arithmetic is exact.
-/

namespace VhdlWorkbench.Outline

open List

variable {α : Type} [Field α] [LinearOrder α] [IsStrictOrderedRing α] {places : List α} {step width : α}

/-- Places that rise from 0 to 1. -/
structure Rises (places : List α) : Prop where
  first : places.head? = some 0
  last : places.getLast? = some 1
  rising : places.IsChain (· < ·)

omit [LinearOrder α] [IsStrictOrderedRing α] in
theorem squeeze_eq (step : α) (places : List α) :
    squeeze Nat.cast step places = places.zipIdx.map fun (place, n) => place - n * step := by
  refine map_congr_left fun (place, n) _ => ?_
  show (if n = 0 then place else _) = _
  split
  · next zero => simp [zero]
  · rfl

/-- Moved places rise where the gaps between the places are wider than the step. -/
theorem isChain_moved_iff (step : α) (places : List α) (n : Nat) :
    ((places.zipIdx n).map fun (place, n) => place - n * step).IsChain (· < ·) ↔
      places.IsChain fun p q => p + step < q := by
  induction places generalizing n with
  | nil => simp
  | cons p places ih =>
    cases places with
    | nil => simp
    | cons q places =>
      have next : p - n * step < q - (n + 1 : Nat) * step ↔ p + step < q := by
        push_cast
        constructor <;> intro less <;> linarith
      rw [isChain_cons_cons, ← next, ← ih (n + 1)]
      exact isChain_cons_cons

omit [LinearOrder α] [IsStrictOrderedRing α] in
theorem getLast?_squeeze (step : α) (places : List α) :
    (squeeze Nat.cast step places).getLast? = places.getLast?.map (· - (places.length - 1 : Nat) * step) := by
  rw [squeeze_eq, getLast?_map, getLast?_zipIdx, Option.map_map]
  simp [Function.comp_def]

theorem Rises.two_le (rises : Rises places) : 2 ≤ places.length := by
  obtain ⟨first, last, -⟩ := rises
  match places with
  | [] => simp at first
  | [p] =>
    simp only [head?_cons, getLast?_singleton, Option.some.injEq] at first last
    exact absurd (first.symm.trans last) zero_ne_one
  | p :: q :: rest => simp

end VhdlWorkbench.Outline

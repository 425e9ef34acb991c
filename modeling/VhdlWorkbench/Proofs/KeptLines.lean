import Mathlib.Data.List.TakeWhile
import VhdlWorkbench.Proofs.JsonSanitize

/-!
Line feeds of sanitised texts. What is removed leaves the first character of each of its line ends, so a line end of
two characters leaves no line feed.
-/

namespace VhdlWorkbench.Json

open List Text

/-- The removed parts of a text in which lines end: block comments behind their opening, and the blanks in front of
line comments. -/
def removedParts (cs : List Char) : List (List Char) :=
  match _hb : blockComment? cs with
  | some (body, rest) => body :: removedParts rest
  | none =>
    match _hl : afterLineComment? cs with
    | some rest => cs.takeWhile isBlank :: removedParts rest
    | none =>
      match _hq : literalPiece? cs with
      | some (_, rest) => removedParts rest
      | none =>
        match cs with
        | [] => []
        | _ :: rest => removedParts (rest.dropWhile (!beginsPiece ·))
termination_by cs.length
decreasing_by
  · exact blockComment?_length _hb
  · exact afterLineComment?_length _hl
  · exact literalPiece?_length _hq
  · exact Nat.lt_succ_of_le (Text.length_dropWhile_le _ rest)

/-- Two texts have as many line feeds exactly under a condition, and the first never has more. -/
def KeepsFeeds (kept cs : List Char) (whole : Prop) : Prop :=
  kept.count '\n' ≤ cs.count '\n' ∧ (kept.count '\n' = cs.count '\n' ↔ whole)

theorem KeepsFeeds.append {kept cs kept' cs' : List Char} {whole whole' : Prop} (first : KeepsFeeds kept cs whole)
    (later : KeepsFeeds kept' cs' whole') : KeepsFeeds (kept ++ kept') (cs ++ cs') (whole ∧ whole') := by
  obtain ⟨le, iff⟩ := first
  obtain ⟨le', iff'⟩ := later
  rw [KeepsFeeds, count_append, count_append, ← iff, ← iff']
  omega

theorem keepsFeeds_same (cs : List Char) : KeepsFeeds cs cs True :=
  ⟨Nat.le_refl _, by simp⟩

theorem keepsFeeds_lineEnds (cs : List Char) : KeepsFeeds (lineEnds cs) cs (¬['\r', '\n'] <:+: cs) := by
  fun_induction lineEnds cs with
  | case1 => exact ⟨Nat.le_refl _, by simp⟩
  | case2 rest ih =>
    have found : ['\r', '\n'] <:+: '\r' :: '\n' :: rest := ⟨[], rest, rfl⟩
    have le := ih.1
    simp only [KeepsFeeds, found, not_true_eq_false, iff_false]
    simp only [count_cons, Char.reduceBEq, Bool.false_eq_true, if_false, if_true]
    omega
  | case3 c rest _ feed ih =>
    obtain rfl := beq_iff_eq.mp feed
    simpa [KeepsFeeds, infix_cons_iff, cons_prefix_cons] using ih
  | case4 c rest single other ih =>
    have split : ¬['\r', '\n'] <+: c :: rest := by
      rintro ⟨behind, same⟩
      obtain ⟨rfl, later⟩ := cons.inj same
      exact single behind rfl later.symm
    have other : c ≠ '\n' := by simpa using other
    simpa [KeepsFeeds, infix_cons_iff, split, count_cons_of_ne other] using ih

theorem count_feed_of_lineComment {cs rest : List Char} (line : afterLineComment? cs = some rest) :
    cs.count '\n' = (cs.takeWhile isBlank ++ rest).count '\n' := by
  unfold afterLineComment? at line
  split at line
  · next tail opened =>
    have body : '\n' ∉ tail.takeWhile fun c => c != '\r' && c != '\n' := fun feed => by
      simpa using mem_takeWhile_imp feed
    have blanks : cs.takeWhile isBlank ++ '/' :: '/' :: tail = cs := opened ▸ takeWhile_append_dropWhile
    have lines := congrArg (count '\n') (takeWhile_append_dropWhile (p := fun c => c != '\r' && c != '\n') (l := tail))
    rw [count_append, count_eq_zero_of_not_mem body, Nat.zero_add] at lines
    rw [← Option.some.inj line, count_append, lines]
    conv_lhs => rw [← blanks]
    simp
  · simp at line

theorem literalPiece?_append {cs body rest : List Char} (piece : literalPiece? cs = some (body, rest)) :
    cs = body ++ rest := by
  cases cs with
  | nil => simp [literalPiece?] at piece
  | cons quote tail =>
    obtain ⟨-, inner, closed, rfl⟩ : _ ∧ ∃ inner, literal? quote tail = some (inner, rest) ∧ quote :: inner = body := by
      simpa [literalPiece?] using piece
    rw [literal?_append closed, cons_append]

theorem keepsFeeds_removeComments (cs : List Char) :
    KeepsFeeds (removeComments true cs) cs (∀ part ∈ removedParts cs, ¬['\r', '\n'] <:+: part) := by
  fun_induction removedParts cs with
  | case1 cs body rest block ih =>
    rw [removeComments_block block, forall_mem_cons]
    unfold blockComment? at block
    split at block
    · obtain rfl := block?_append block
      simpa [KeepsFeeds, residue] using (keepsFeeds_lineEnds body).append ih
    · simp at block
  | case2 cs block rest line ih =>
    rw [removeComments_line block line, forall_mem_cons, KeepsFeeds, count_feed_of_lineComment line]
    exact (keepsFeeds_lineEnds _).append ih
  | case3 cs block line body rest piece ih =>
    rw [removeComments_literal block line piece, literalPiece?_append piece]
    simpa using (keepsFeeds_same body).append ih
  | case4 =>
    have none : removeComments true [] = [] := by decide +kernel
    rw [none]
    exact ⟨Nat.le_refl _, by simp⟩
  | case5 c rest block line piece ih =>
    rw [removeComments_char block line piece]
    have kept := (keepsFeeds_same (c :: rest.takeWhile (!beginsPiece ·))).append ih
    rwa [cons_append, cons_append, takeWhile_append_dropWhile, true_and] at kept

theorem count_feed_removeDanglingCommas (cs : List Char) :
    (removeDanglingCommas true cs).count '\n' = cs.count '\n' := by
  fun_induction removeDanglingCommas true cs with
  | case1 cs body rest piece ih => rw [count_append, ih, ← count_append, ← literalPiece?_append piece]
  | case2 => rfl
  | case3 c rest _ d after behind comma _ ih =>
    have blanks : rest.takeWhile isBlank ++ d :: after = rest := behind ▸ takeWhile_append_dropWhile
    conv_rhs => rw [beq_iff_eq.mp comma, ← blanks]
    simp [ih, count_cons]
  | case4 c rest _ d after _ _ _ ih => rw [count_cons, ih, count_cons]
  | case5 c rest _ _ ih => rw [count_cons, ih, count_cons]

/-- A sanitised text has as many line feeds as the text, with its lines kept, exactly if no removed part has a line
end of two characters. -/
theorem sanitize_keeps_lines_iff (text : String) :
    (sanitize true text).toList.count '\n' = text.toList.count '\n' ↔
      ∀ part ∈ removedParts text.toList, ¬['\r', '\n'] <:+: part := by
  simp only [sanitize, withoutDanglingCommas, withoutComments, String.toList_ofList, count_feed_removeDanglingCommas]
  exact (keepsFeeds_removeComments text.toList).2

/-- A line that ends in two characters within a comment is lost. -/
theorem sanitize_loses_line :
    (sanitize true "/*\x0d\n*/").toList.count '\n' ≠ "/*\x0d\n*/".toList.count '\n' := by
  decide +kernel

end VhdlWorkbench.Json

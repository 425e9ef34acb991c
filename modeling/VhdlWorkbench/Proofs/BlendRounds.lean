import VhdlWorkbench.Colour.Value
import VhdlWorkbench.Proofs.ColourRange
import VhdlWorkbench.Proofs.Outcomes

/-!
Rounds of blending. A mixture is longer than the colour that takes its place, also with the other colours of the
mixture behind it. So each round makes the text shorter, and the rounds end at a text without mixtures.
-/

namespace VhdlWorkbench.Pattern

open List

variable {r : Regex} {s out : String}

namespace Regex

/-- A replacement that may fail, and does not, is one by what the function gives. -/
theorem replaceByM_eq_ok {ε : Type} {f : Match → Except ε String} {n : Nat} (done : r.replaceByM f s = .ok (out, n)) :
    ∃ g : Match → String, (∀ m ∈ r.matches_ s, f m = .ok (g m)) ∧ out = r.replaceBy g s ∧
      n = (r.matches_ s).length := by
  obtain ⟨news, made, same⟩ := bind_eq_ok.mp done
  let g (m : Match) : String := (f m).toOption.getD ""
  have given : (∀ m ∈ r.matches_ s, f m = .ok (g m)) ∧ news = (r.matches_ s).map g := by
    have each := mapM_eq_ok.mp made
    clear same made done
    generalize r.matches_ s = found at each
    induction each with
    | nil => simp
    | cons here _ ih =>
      have own : g _ = _ := congrArg (·.toOption.getD "") here
      exact ⟨forall_mem_cons.mpr ⟨here.trans (congrArg _ own.symm), ih.1⟩, by rw [map_cons, own, ← ih.2]; rfl⟩
  have glued (pos : Nat) (ms : List Match) (chars : Array Char) :
      ((ms.zip ((pos :: ms.map (·.stop)).zip (ms.map g))).flatMap fun piece =>
        segment chars piece.2.1 piece.1.start ++ piece.2.2.toList) ++
          segment chars ((pos :: ms.map (·.stop)).getLastD 0) chars.size =
        splice chars (fun m => (g m).toList) pos ms := by
    induction ms generalizing pos with
    | nil => simp [splice]
    | cons m ms ih => simp [splice, ← ih]
  obtain ⟨rfl, rfl⟩ := Prod.mk.inj (Except.ok.inj same)
  refine ⟨g, given.1, ?_, rfl⟩
  rw [given.2]
  exact congrArg String.ofList (glued 0 _ _)

theorem replaceBy_of_matches_eq_nil (none : r.matches_ s = []) (f : Match → String) : r.replaceBy f s = s := by
  simp [replaceBy, none, splice, segment]

theorem search?_of_matches_eq_nil (none : r.matches_ s = []) : r.search? s = Option.none := by
  unfold matches_ matchesFrom at none
  dsimp only at none
  split at none
  · assumption
  · simp at none

/-- Shorter texts in place of all matches make a text shorter. -/
theorem length_replaceBy_lt {f : Match → String} (some : r.matches_ s ≠ [])
    (shorter : ∀ m ∈ r.matches_ s, (f m).length < (segment s.toList.toArray m.start m.stop).length) :
    (r.replaceBy f s).length < s.length := by
  have total (ms : List Match) (pos : Nat)
      (shorter : ∀ m ∈ ms, (f m).length < (segment s.toList.toArray m.start m.stop).length) :
      (splice s.toList.toArray (fun m => (f m).toList) pos ms).length + ms.length ≤
        (splice s.toList.toArray (fun m => segment s.toList.toArray m.start m.stop) pos ms).length := by
    induction ms generalizing pos with
    | nil => exact Nat.le_refl _
    | cons m ms ih =>
      have here := shorter m mem_cons_self
      have later := ih m.stop fun m' member => shorter m' (mem_cons_of_mem m member)
      simp only [splice, length_append, length_cons, String.length_toList]
      omega
  have whole := total _ 0 shorter
  rw [matches_, splice_own, textFrom_zero, ← matches_, String.length_toList] at whole
  have positive := length_pos_iff.mpr some
  rw [replaceBy, String.length_ofList]
  omega

end Regex

end VhdlWorkbench.Pattern

namespace VhdlWorkbench.Colour

open Pattern

variable {text : Array Char} {pos : Nat} {b : Bool} {m : Match} {new s result : String}

theorem length_toShortText {c : Rgba} (inside : c.InRange) : c.toShortText.length ≤ 9 := by
  unfold Rgba.toShortText
  split
  · have written := Rgba.parse_toRgbText inside (show ([] : List Char).length ≤ 2 by decide) (by simp)
    obtain ⟨⟨digits, same, length, -⟩, -⟩ := written
    rw [String.ofList_nil, String.append_empty] at same
    rw [same, String.length_ofList, List.length_cons, length]
    decide
  · obtain ⟨⟨digits, same, length, -⟩, -⟩ := Rgba.parse_toText inside
    rw [same, String.length_ofList, List.length_cons, length]

/-- What the first blending of a mixture leaves is the colour, or a mixture of it with the other colours. -/
theorem length_blendFirst (blended : blendFirst m = .ok new) :
    match m.named? "other" with
    | some other => new.length ≤ 17 + other.length
    | none => new.length ≤ 9 := by
  obtain ⟨percent, -, blended⟩ := bind_eq_ok.mp blended
  obtain ⟨base, read, blended⟩ := bind_eq_ok.mp blended
  have inside := (keeps_blend (m.named "color") percent (m.named "type" == "blenda") base
    (Rgba.inRange_of_parse read)).1
  generalize (blend (m.named "color") percent (m.named "type" == "blenda")).run.run base = after at inside blended
  obtain ⟨-, -, blended⟩ := bind_eq_ok.mp blended
  have short := length_toShortText inside
  cases given : m.named? "other" with
  | none =>
    simp only [given] at blended
    obtain rfl := Except.ok.inj blended
    exact short
  | some other =>
    simp only [given] at blended
    obtain rfl := Except.ok.inj blended
    have written : "color(".length = 6 ∧ " ".length = 1 ∧ ")".length = 1 := by decide
    simp only [String.length_append, written]
    omega

/-- The parts of a mixture in front of its other colours take 31 characters or more. -/
theorem mixture_parts (found : mixture.matchAt text pos b = some m) : ∃ start stop,
    m.start + 31 ≤ start ∧ start ≤ stop ∧ stop < m.stop ∧ m.stop ≤ text.size ∧
      ∀ other, m.named? "other" = some other → other.length ≤ stop - start := by
  obtain ⟨t, ⟨t₃, ⟨t₂, ⟨t₁, front, others⟩, blanks⟩, c, here, -, rfl⟩, rfl⟩ := Regex.matchAt_reaches found
  have width : 31 ≤ ((mixture.node.front 3).width []).1 := by decide
  have inside := (Array.getElem?_eq_some_iff.mp here).1
  refine ⟨t₁.pos, t₂.pos, Nat.le_trans (Nat.add_le_add_left width pos) front.width_le, others.pos_le,
    Nat.lt_succ_of_le blanks.pos_le, inside, fun other given => ?_⟩
  -- The other colours are the fifth group, which the parts around them leave as it is.
  have listed : mixture.names.lookup "other" = some 5 := by decide
  have kept : t₃.spans[5]? = t₂.spans[5]? := blanks.span_eq (by decide)
  have unset : t₁.spans[5]? = some none := front.span_eq (by decide)
  simp only [Match.named?, listed, Match.group?, Match.span?, Option.bind_some, kept, OfNat.ofNat_ne_zero,
    ↓reduceIte] at given
  rcases Design.reaches_optional others with rfl | ⟨u, passed, rfl⟩
  · simp [unset] at given
  · have room : 5 < u.spans.size := by
      rw [passed.spans_size, front.spans_size, Array.size_replicate]
      decide
    rw [Array.getElem?_setIfInBounds_self_of_lt room] at given
    obtain rfl := Option.some.inj given
    rw [String.length_ofList, segment_eq_take]
    exact List.length_take_le _ _

/-- A mixture is longer than what its first blending leaves. -/
theorem blendFirst_shorter (found : mixture.matchAt text pos b = some m) (blended : blendFirst m = .ok new) :
    new.length < (segment text m.start m.stop).length := by
  obtain ⟨start, stop, front, forward, before, inside, others⟩ := mixture_parts found
  have size : (segment text m.start m.stop).length = m.stop - m.start := by
    simp [Pattern.segment]
    omega
  have bound := length_blendFirst blended
  cases given : m.named? "other" with
  | none =>
    simp only [given] at bound
    omega
  | some other =>
    simp only [given] at bound
    have most := others other given
    omega

theorem blend_round_shorter {count : Nat} (round : mixture.replaceByM blendFirst s = .ok (result, count))
    (positive : 0 < count) : result.length < s.length := by
  obtain ⟨g, given, rfl, rfl⟩ := Regex.replaceByM_eq_ok round
  refine Regex.length_replaceBy_lt (List.length_pos_iff.mp positive) fun m member => ?_
  obtain ⟨place, b, found⟩ := Regex.exists_matchAt_of_mem member
  exact blendFirst_shorter found (given m member)

/-- Rounds enough for the length of a text end at a text without mixtures, and more rounds change nothing. -/
theorem blendAll_of_length_lt {fuel : Nat} (enough : s.length < fuel) :
    (∀ result, blendAll fuel s = .ok result → mixture.search? result = none) ∧
      blendAll (fuel + 1) s = blendAll fuel s := by
  induction fuel generalizing s with
  | zero => omega
  | succ fuel ih =>
    rw [blendAll, blendAll]
    cases round : mixture.replaceByM blendFirst s with
    | error e => exact ⟨nofun, rfl⟩
    | ok next =>
      simp only [bind, Except.bind]
      split
      · next zero =>
        obtain ⟨g, -, same, counted⟩ := Regex.replaceByM_eq_ok round
        have none := List.length_eq_zero_iff.mp (counted.symm.trans zero)
        rw [same, Regex.replaceBy_of_matches_eq_nil none]
        refine ⟨fun result done => ?_, rfl⟩
        obtain rfl := Except.ok.inj done
        exact Regex.search?_of_matches_eq_nil none
      · next some =>
        have shorter := blend_round_shorter round (Nat.pos_of_ne_zero some)
        exact ih (by omega)

/-- A round that blends anything makes the text shorter. So the rounds end, however many are allowed beyond the length
of the text, and the text they end at has no mixture. -/
theorem blending_ends (s : String) :
    (∀ next count, mixture.replaceByM blendFirst s = .ok (next, count) → 0 < count → next.length < s.length) ∧
      (∀ more, blendAll (s.length + 1 + more) s = blendAll (s.length + 1) s) ∧
      ∀ result, blendAll (s.length + 1) s = .ok result → mixture.search? result = none := by
  refine ⟨fun next count => blend_round_shorter, fun more => ?_, (blendAll_of_length_lt (Nat.lt_succ_self _)).1⟩
  induction more with
  | zero => rfl
  | succ more ih => rw [← Nat.add_assoc, (blendAll_of_length_lt (by omega)).2, ih]

end VhdlWorkbench.Colour

import VhdlWorkbench.Pattern.Regex

/-!
What a pattern can match, without the order of preference: the threads that are reached through it.
-/

namespace VhdlWorkbench.Pattern

open List Option

variable {s : Single} {t r t' : Thread} {lo n i pos : Nat} {k : Continuation} {hi more : Option Nat} {greed : Greed}

/-- `n` rounds of a relation between threads. -/
def Rounds (R : Thread → Thread → Prop) : Nat → Thread → Thread → Prop
  | 0, t, t' => t' = t
  | n + 1, t, t' => ∃ m, R t m ∧ Rounds R n m t'

/-- A thread reaches another through a pattern. -/
def Reaches (text : Array Char) : Node → Options → Thread → Thread → Prop
  | .empty, _, t, t' => t' = t
  | .one s, o, t, t' =>
    ∃ c, text[t.pos]? = some c ∧ s.accepts o c = true ∧ t' = { t with pos := t.pos + 1 }
  | .run s lo hi _, o, t, t' =>
    ∃ n, lo ≤ n ∧ (∀ h, hi = some h → n ≤ h) ∧
      (∀ i < n, ∃ c, text[t.pos + i]? = some c ∧ s.accepts o c = true) ∧
      t' = { t with pos := t.pos + n }
  | .seq a b, o, t, t' => ∃ m, Reaches text a o t m ∧ Reaches text b o m t'
  | .alt a b, o, t, t' => Reaches text a o t t' ∨ Reaches text b o t t'
  | .rep body lo hi _, o, t, t' =>
    ∃ n, lo ≤ n ∧ (∀ h, hi = some h → n ≤ lo + (h - lo)) ∧ Rounds (Reaches text body o) n t t'
  | .capture slot _ body, o, t, t' =>
    ∃ m, Reaches text body o t m ∧
      t' = { m with spans := m.spans.setIfInBounds slot (some (t.pos, m.pos)) }
  | .group body, o, t, t' => Reaches text body o t t'
  | .scoped on off body, o, t, t' => Reaches text body (o.adjust on off) t t'
  | .ref slot, o, t, t' =>
    ∃ start stop, t.spans[slot]? = some (some (start, stop)) ∧
      standsAt text o (segment text start stop) t.pos = true ∧
      t' = { t with pos := t.pos + (stop - start) }
  | .anchor a, o, t, t' => a.holds text o t.pos = true ∧ t' = t
  | .look behind negated body, o, t, t' =>
    if negated then t' = t
    else
      behind.getD 0 ≤ t.pos ∧
        ∃ m, Reaches text body o { t with pos := t.pos - behind.getD 0 } m ∧
          t' = { m with pos := t.pos }
  | .whenSet _ yes no, o, t, t' => Reaches text yes o t t' ∨ Reaches text no o t t'
  | .atomic body, o, t, t' => Reaches text body o t t'
  | .pasted word, o, t, t' =>
    wordStandsAt text o word.toList t.pos = true ∧ t' = { t with pos := t.pos + word.length }

variable {text : Array Char} {o : Options}

theorem runLength_le (text : Array Char) (o : Options) (s : Single) (limit pos : Nat) :
    runLength text o s limit pos ≤ limit := by
  induction limit generalizing pos with
  | zero => simp [runLength]
  | succ limit ih =>
    unfold runLength
    split
    · omega
    · split
      · exact Nat.succ_le_succ (ih _)
      · omega

theorem accepts_of_lt_runLength (limit pos i : Nat) (inside : i < runLength text o s limit pos) :
    ∃ c, text[pos + i]? = some c ∧ s.accepts o c = true := by
  induction limit generalizing pos i with
  | zero => simp [runLength] at inside
  | succ limit ih =>
    unfold runLength at inside
    split at inside
    · omega
    · next c found =>
      split at inside
      · next accepted =>
        cases i with
        | zero => exact ⟨c, by simpa using found, accepted⟩
        | succ i =>
          obtain ⟨d, there, taken⟩ := ih (pos + 1) i (by omega)
          exact ⟨d, by rwa [show pos + (i + 1) = pos + 1 + i by omega], taken⟩
      · omega

theorem longestFirst_some (success : longestFirst t lo k n = some r) :
    ∃ i ≤ n, k { t with pos := t.pos + (lo + i) } = some r := by
  induction n with
  | zero => exact ⟨0, Nat.le_refl _, success⟩
  | succ n ih =>
    unfold longestFirst at success
    split at success
    · next r' first =>
      refine ⟨n + 1, Nat.le_refl _, ?_⟩
      rw [← success, ← first, show t.pos + (lo + (n + 1)) = t.pos + lo + n + 1 by omega]
    · obtain ⟨i, bound, found⟩ := ih success
      exact ⟨i, by omega, found⟩

theorem shortestFirst_some (success : shortestFirst text o s k n t = some r) :
    ∃ i ≤ n, (∀ j < i, ∃ c, text[t.pos + j]? = some c ∧ s.accepts o c = true) ∧
      k { t with pos := t.pos + i } = some r := by
  induction n generalizing t with
  | zero => exact ⟨0, Nat.le_refl _, by omega, success⟩
  | succ n ih =>
    unfold shortestFirst at success
    split at success
    · next r' here =>
      exact ⟨0, by omega, by omega, here.trans success⟩
    · split at success
      · simp at success
      · next c found =>
        split at success
        · next accepted =>
          obtain ⟨i, bound, before, reached⟩ := ih success
          refine ⟨i + 1, by omega, ?_, ?_⟩
          · intro j inside
            cases j with
            | zero => exact ⟨c, by simpa using found, accepted⟩
            | succ j =>
              obtain ⟨d, there, taken⟩ := before j (by omega)
              exact ⟨d, by rwa [show t.pos + (j + 1) = t.pos + 1 + j by omega], taken⟩
          · rw [show t.pos + (i + 1) = t.pos + 1 + i by omega]
            exact reached
        · simp at success

theorem runSingle_reaches (success : runSingle text o s lo hi greed t k = some r) :
    ∃ t', Reaches text (.run s lo hi greed) o t t' ∧ k t' = some r := by
  obtain ⟨limit, limit_eq⟩ : ∃ limit, limit = min (hi.getD (text.size - t.pos)) (text.size - t.pos) :=
    ⟨_, rfl⟩
  have limited : ∀ n ≤ limit, ∀ h, hi = some h → n ≤ h := by
    rintro n bound h rfl
    simp only [getD_some] at limit_eq
    omega
  have short := runLength_le text o s limit t.pos
  simp only [runSingle, runLengthFrom_eq, Nat.zero_add, ← limit_eq] at success
  cases greed with
  | greedy =>
    simp only at success
    split at success
    · simp at success
    · obtain ⟨i, bound, found⟩ := longestFirst_some success
      refine ⟨_, ⟨lo + i, by omega, limited _ (by omega), ?_, rfl⟩, found⟩
      intro j inside
      exact accepts_of_lt_runLength limit t.pos j (by omega)
  | lazy =>
    simp only at success
    split at success
    · simp at success
    · obtain ⟨i, bound, before, found⟩ := shortestFirst_some success
      have shorter := runLength_le text o s (min lo limit) t.pos
      simp only [Nat.add_assoc] at before found
      refine ⟨_, ⟨lo + i, by omega, limited _ (by omega), ?_, rfl⟩, found⟩
      intro j inside
      by_cases early : j < lo
      · exact accepts_of_lt_runLength (min lo limit) t.pos j (by omega)
      · obtain ⟨c, there, taken⟩ := before (j - lo) (by omega)
        exact ⟨c, by rwa [show lo + (j - lo) = j by omega] at there, taken⟩
  | possessive =>
    simp only at success
    split at success
    · simp at success
    · exact ⟨_, ⟨_, by omega, limited _ short, accepts_of_lt_runLength limit t.pos, rfl⟩, success⟩

section Bodies

variable {body : Thread → Continuation → Option Thread} {R : Thread → Thread → Prop}

theorem Rounds.add {m : Thread} {j : Nat} (first : Rounds R i t m)
    (second : Rounds R j m t') : Rounds R (i + j) t t' := by
  induction i generalizing t with
  | zero =>
    obtain rfl := first
    rwa [Nat.zero_add]
  | succ i ih =>
    obtain ⟨n, step, more⟩ := first
    rw [show i + 1 + j = i + j + 1 by omega]
    exact ⟨n, step, ih more⟩

theorem spend_round (unspent : ¬(more == some 0) = true)
    (bound : ∀ h, more.map (· - 1) = some h → n ≤ h) : ∀ h, more = some h → n + 1 ≤ h := by
  rintro h rfl
  have left := bound (h - 1) rfl
  have : h ≠ 0 := by
    rintro rfl
    exact unspent rfl
  omega

variable (sound : ∀ t k r, body t k = some r → ∃ t', R t t' ∧ k t' = some r) {fuel : Nat}
include sound

theorem exactly_rounds (success : exactly body k n t = some r) : ∃ t', Rounds R n t t' ∧ k t' = some r := by
  induction n generalizing t with
  | zero => exact ⟨t, rfl, success⟩
  | succ n ih =>
    obtain ⟨m, step, more⟩ := sound _ _ _ success
    obtain ⟨t', rounds, found⟩ := ih more
    exact ⟨t', ⟨m, step, rounds⟩, found⟩

/-- One more round, and then what the repetition does with the rounds that are left. -/
theorem round_rounds {rest : Continuation} (unspent : ¬(more == some 0) = true)
    (later : ∀ t, rest t = some r →
      ∃ n t', (∀ h, more.map (· - 1) = some h → n ≤ h) ∧ Rounds R n t t' ∧ k t' = some r)
    (success : body t (fun t' => if t'.pos == t.pos then k t' else rest t') = some r) :
    ∃ n t', (∀ h, more = some h → n ≤ h) ∧ Rounds R n t t' ∧ k t' = some r := by
  obtain ⟨m, step, after⟩ := sound _ _ _ success
  split at after
  · exact ⟨1, m, spend_round unspent (by omega), ⟨m, step, rfl⟩, after⟩
  · obtain ⟨n, t', bound, rounds, found⟩ := later m after
    exact ⟨n + 1, t', spend_round unspent bound, ⟨m, step, rounds⟩, found⟩

theorem repeatGreedy_rounds (success : repeatGreedy body k fuel more t = some r) :
    ∃ n t', (∀ h, more = some h → n ≤ h) ∧ Rounds R n t t' ∧ k t' = some r := by
  induction fuel generalizing more t with
  | zero => exact ⟨0, t, by omega, rfl, success⟩
  | succ fuel ih =>
    unfold repeatGreedy at success
    split at success
    · exact ⟨0, t, by omega, rfl, success⟩
    · next unspent =>
      split at success
      · next r' first =>
        cases success
        exact round_rounds sound unspent (fun _ => ih) first
      · exact ⟨0, t, by omega, rfl, success⟩

theorem repeatLazy_rounds (success : repeatLazy body k fuel more t = some r) :
    ∃ n t', (∀ h, more = some h → n ≤ h) ∧ Rounds R n t t' ∧ k t' = some r := by
  induction fuel generalizing more t with
  | zero => exact ⟨0, t, by omega, rfl, success⟩
  | succ fuel ih =>
    unfold repeatLazy at success
    split at success
    · next r' here =>
      exact ⟨0, t, by omega, rfl, here.trans success⟩
    · split at success
      · simp at success
      · next unspent => exact round_rounds sound unspent (fun _ => ih) success

theorem exactlyFirst_rounds (success : exactlyFirst body n t = some t') : Rounds R n t t' := by
  induction n generalizing t with
  | zero => exact (some.inj success).symm
  | succ n ih =>
    unfold exactlyFirst at success
    split at success
    · simp at success
    · next m first =>
      obtain ⟨m', step, same⟩ := sound _ _ _ first
      cases same
      exact ⟨_, step, ih success⟩

theorem repeatFirst_rounds (fuel : Nat) (more : Option Nat) (t : Thread) :
    ∃ n, (∀ h, more = some h → n ≤ h) ∧ Rounds R n t (repeatFirst body fuel more t) := by
  induction fuel generalizing more t with
  | zero => exact ⟨0, by omega, rfl⟩
  | succ fuel ih =>
    unfold repeatFirst
    split
    · exact ⟨0, by omega, rfl⟩
    · next unspent =>
      split
      · exact ⟨0, by omega, rfl⟩
      · next m first =>
        obtain ⟨m', step, same⟩ := sound _ _ _ first
        cases same
        split
        · exact ⟨1, spend_round unspent (by omega), _, step, rfl⟩
        · obtain ⟨n, bound, rounds⟩ := ih (more.map (· - 1)) m
          exact ⟨n + 1, spend_round unspent bound, _, step, rounds⟩

end Bodies

theorem rep_of_rounds {body : Node} {j : Nat}
    {m : Thread} (first : Rounds (Reaches text body o) i t m) (least : i = lo)
    (bound : ∀ h, hi.map (· - lo) = some h → j ≤ h) (second : Rounds (Reaches text body o) j m t') :
    Reaches text (.rep body lo hi greed) o t t' := by
  subst least
  refine ⟨i + j, by omega, ?_, first.add second⟩
  rintro h rfl
  have := bound (h - i) rfl
  omega

/-- The matcher succeeds only through a thread that the pattern reaches. -/
theorem exec_reaches (p : Node) (o : Options) (t : Thread) (k : Continuation) (r : Thread)
    (success : exec text p o t k = some r) : ∃ t', Reaches text p o t t' ∧ k t' = some r := by
  induction p generalizing o t k r with
  | empty => exact ⟨t, rfl, success⟩
  | one s =>
    simp only [exec] at success
    split at success
    · simp at success
    · next c found =>
      split at success
      · next accepted => exact ⟨_, ⟨c, found, accepted, rfl⟩, success⟩
      · simp at success
  | run s lo hi greed => exact runSingle_reaches success
  | seq a b iha ihb =>
    obtain ⟨m, left, after⟩ := iha _ _ _ _ success
    obtain ⟨t', right, found⟩ := ihb _ _ _ _ after
    exact ⟨t', ⟨m, left, right⟩, found⟩
  | alt a b iha ihb =>
    simp only [exec] at success
    split at success
    · next r' first =>
      obtain ⟨t', left, found⟩ := iha _ _ _ _ (first.trans success)
      exact ⟨t', Or.inl left, found⟩
    · obtain ⟨t', right, found⟩ := ihb _ _ _ _ success
      exact ⟨t', Or.inr right, found⟩
  | rep body lo hi greed ih =>
    cases greed with
    | greedy =>
      obtain ⟨m, rounds, after⟩ := exactly_rounds (ih o) success
      obtain ⟨n, t', bound, more, found⟩ := repeatGreedy_rounds (ih o) after
      exact ⟨t', rep_of_rounds rounds rfl bound more, found⟩
    | lazy =>
      obtain ⟨m, rounds, after⟩ := exactly_rounds (ih o) success
      obtain ⟨n, t', bound, more, found⟩ := repeatLazy_rounds (ih o) after
      exact ⟨t', rep_of_rounds rounds rfl bound more, found⟩
    | possessive =>
      simp only [exec] at success
      split at success
      · simp at success
      · next m first =>
        obtain ⟨n, bound, more⟩ := repeatFirst_rounds (ih o) (text.size - t.pos + 1)
          (hi.map (· - lo)) m
        exact ⟨_, rep_of_rounds (exactlyFirst_rounds (ih o) first) rfl bound more, success⟩
  | capture slot name body ih =>
    obtain ⟨m, inner, found⟩ := ih _ _ _ _ success
    exact ⟨_, ⟨m, inner, rfl⟩, found⟩
  | group body ih => exact ih _ _ _ _ success
  | «scoped» on off body ih => exact ih _ _ _ _ success
  | ref slot =>
    simp only [exec] at success
    split at success
    · next start stop span =>
      split at success
      · next same => exact ⟨_, ⟨start, stop, span, same, rfl⟩, success⟩
      · simp at success
    · simp at success
  | anchor a =>
    simp only [exec] at success
    split at success
    · next holds => exact ⟨t, ⟨holds, rfl⟩, success⟩
    · simp at success
  | look behind negated body ih =>
    simp only [exec] at success
    split at success
    · next t' found =>
      split at found
      · simp at found
      · next room =>
        obtain ⟨m, inner, same⟩ := ih _ _ _ _ found
        cases same
        exact ⟨_, ⟨by omega, _, inner, rfl⟩, success⟩
    · exact ⟨t, rfl, success⟩
    · simp at success
  | whenSet slot yes no ihy ihn =>
    simp only [exec] at success
    split at success
    · obtain ⟨t', inner, found⟩ := ihy _ _ _ _ success
      exact ⟨t', Or.inl inner, found⟩
    · obtain ⟨t', inner, found⟩ := ihn _ _ _ _ success
      exact ⟨t', Or.inr inner, found⟩
  | atomic body ih =>
    simp only [exec] at success
    split at success
    · simp at success
    · next m first =>
      obtain ⟨t', inner, same⟩ := ih _ _ _ _ first
      cases same
      exact ⟨_, inner, success⟩
  | pasted word =>
    simp only [exec] at success
    split at success
    · next stands => exact ⟨_, ⟨stands, rfl⟩, success⟩
    · simp at success

/-- Every way through the pattern is tried: no part of it keeps its first success. -/
def Node.backtracks : Node → Bool
  | .empty | .one _ | .ref _ | .anchor _ | .pasted _ => true
  | .run _ _ _ greed => greed != .possessive
  | .seq a b | .alt a b => a.backtracks && b.backtracks
  | .capture _ _ body | .group body | .scoped _ _ body => body.backtracks
  | .rep _ _ _ _ | .look _ _ _ | .whenSet _ _ _ | .atomic _ => false

theorem le_runLength {limit : Nat} (room : n ≤ limit)
    (taken : ∀ i < n, ∃ c, text[pos + i]? = some c ∧ s.accepts o c = true) : n ≤ runLength text o s limit pos := by
  induction limit generalizing pos n with
  | zero => omega
  | succ limit ih =>
    cases n with
    | zero => omega
    | succ n =>
      obtain ⟨c, here, accepted⟩ := taken 0 (by omega)
      have later : n ≤ runLength text o s limit (pos + 1) := by
        refine ih (by omega) fun i inside => ?_
        rw [show pos + 1 + i = pos + (i + 1) by omega]
        exact taken (i + 1) (by omega)
      rw [Nat.add_zero] at here
      simp only [runLength, here, accepted, ↓reduceIte]
      omega

theorem longestFirst_isSome (inside : i ≤ n) (goes : (k { t with pos := t.pos + (lo + i) }).isSome = true) :
    (longestFirst t lo k n).isSome = true := by
  induction n with
  | zero =>
    obtain rfl : i = 0 := by omega
    exact goes
  | succ n ih =>
    unfold longestFirst
    split
    · rfl
    · next fails =>
      by_cases last : i = n + 1
      · subst last
        rw [show t.pos + (lo + (n + 1)) = t.pos + lo + n + 1 by omega, fails] at goes
        simp at goes
      · exact ih (by omega)

theorem shortestFirst_isSome
    (inside : i ≤ n) (taken : ∀ j < i, ∃ c, text[t.pos + j]? = some c ∧ s.accepts o c = true)
    (goes : (k { t with pos := t.pos + i }).isSome = true) : (shortestFirst text o s k n t).isSome = true := by
  induction n generalizing t i with
  | zero =>
    obtain rfl : i = 0 := by omega
    exact goes
  | succ n ih =>
    unfold shortestFirst
    split
    · rfl
    · next fails =>
      cases i with
      | zero =>
        rw [show ({ t with pos := t.pos + 0 } : Thread) = t from rfl, fails] at goes
        simp at goes
      | succ i =>
        obtain ⟨c, here, accepted⟩ := taken 0 (by omega)
        rw [Nat.add_zero] at here
        simp only [here, accepted, ↓reduceIte]
        refine ih (i := i) (by omega) (fun j before => ?_) ?_
        · rw [show t.pos + 1 + j = t.pos + (j + 1) by omega]
          exact taken (j + 1) (by omega)
        · rwa [show t.pos + 1 + i = t.pos + (i + 1) by omega]

theorem runSingle_of_reaches (tried : greed ≠ .possessive)
    (reached : Reaches text (.run s lo hi greed) o t t') (goes : (k t').isSome = true) :
    (runSingle text o s lo hi greed t k).isSome = true := by
  obtain ⟨n, least, most, taken, rfl⟩ := reached
  obtain ⟨limit, limit_eq⟩ : ∃ limit, limit = min (hi.getD (text.size - t.pos)) (text.size - t.pos) :=
    ⟨_, rfl⟩
  have room : n ≤ limit := by
    have inside : n ≤ text.size - t.pos := by
      cases n with
      | zero => omega
      | succ n =>
        obtain ⟨c, there, -⟩ := taken n (by omega)
        obtain ⟨bound, -⟩ := Array.getElem?_eq_some_iff.mp there
        omega
    cases hi with
    | none =>
      rw [getD_none] at limit_eq
      omega
    | some h =>
      have := most h rfl
      rw [getD_some] at limit_eq
      omega
  obtain ⟨i, rfl⟩ := Nat.exists_eq_add_of_le least
  simp only [runSingle, runLengthFrom_eq, Nat.zero_add, ← limit_eq]
  cases greed with
  | greedy =>
    have long := le_runLength room taken
    simp only [if_neg (show ¬runLength text o s limit t.pos < lo by omega)]
    exact longestFirst_isSome (show i ≤ _ by omega) goes
  | lazy =>
    have long : lo ≤ runLength text o s (min lo limit) t.pos :=
      le_runLength (by omega) fun j inside => taken j (by omega)
    simp only [if_neg (show ¬runLength text o s (min lo limit) t.pos < lo by omega)]
    refine shortestFirst_isSome (show i ≤ limit - lo by omega) (fun j inside => ?_) ?_
    · rw [Nat.add_assoc]
      exact taken (lo + j) (by omega)
    · rwa [Nat.add_assoc]
  | possessive => exact absurd rfl tried

/-- The matcher succeeds if the pattern reaches a thread from which the rest succeeds. -/
theorem exec_of_reaches (p : Node) (o : Options) (t t' : Thread) (k : Continuation)
    (tried : p.backtracks = true) (reached : Reaches text p o t t') (goes : (k t').isSome = true) :
    (exec text p o t k).isSome = true := by
  induction p generalizing o t t' k with
  | empty =>
    obtain rfl := reached
    exact goes
  | one s =>
    obtain ⟨c, here, accepted, rfl⟩ := reached
    simpa only [exec, here, accepted, ↓reduceIte] using goes
  | run s lo hi greed =>
    refine runSingle_of_reaches ?_ reached goes
    simpa [Node.backtracks] using tried
  | seq a b iha ihb =>
    obtain ⟨first, second⟩ := Bool.and_eq_true_iff.mp tried
    obtain ⟨m, left, right⟩ := reached
    exact iha o t m _ first left (ihb o m t' k second right goes)
  | alt a b iha ihb =>
    obtain ⟨first, second⟩ := Bool.and_eq_true_iff.mp tried
    simp only [exec]
    split
    · rfl
    · next fails =>
      rcases reached with left | right
      · have := iha o t t' k first left goes
        rw [fails] at this
        simp at this
      · exact ihb o t t' k second right goes
  | capture slot name body ih =>
    obtain ⟨m, inner, rfl⟩ := reached
    exact ih o t m _ tried inner goes
  | group body ih => exact ih o t t' k tried reached goes
  | «scoped» on off body ih => exact ih _ t t' k tried reached goes
  | ref slot =>
    obtain ⟨start, stop, span, same, rfl⟩ := reached
    simpa only [exec, span, same, ↓reduceIte] using goes
  | anchor a =>
    obtain ⟨holds, rfl⟩ := reached
    simpa only [exec, holds, ↓reduceIte] using goes
  | pasted word =>
    obtain ⟨stands, rfl⟩ := reached
    simpa only [exec, stands, ↓reduceIte] using goes
  | rep | look | whenSet | atomic => simp [Node.backtracks] at tried

theorem Rounds.rel {R S : Thread → Thread → Prop} (refl : ∀ t, S t t) (trans : ∀ t m t', S t m → S m t' → S t t')
    (step : ∀ t t', R t t' → S t t') (rounds : Rounds R n t t') : S t t' := by
  induction n generalizing t with
  | zero => exact (show t' = t from rounds) ▸ refl t
  | succ n ih =>
    obtain ⟨m, first, more⟩ := rounds
    exact trans t m t' (step t m first) (ih more)

def Node.captures : Node → List Nat
  | .empty | .one _ | .run _ _ _ _ | .ref _ | .anchor _ | .pasted _ => []
  | .seq a b | .alt a b | .whenSet _ a b => a.captures ++ b.captures
  | .capture slot _ body => slot :: body.captures
  | .rep body _ _ _ | .group body | .scoped _ _ body | .look _ _ body | .atomic body => body.captures

namespace Node

theorem number_of_captureless {p : Node} (none : p.captures = []) (n : Nat) : p.number n = (p, n) := by
  induction p generalizing n with
  | seq a b iha ihb | alt a b iha ihb | whenSet _ a b iha ihb =>
    obtain ⟨left, right⟩ := append_eq_nil_iff.mp none
    simp only [number, iha left, ihb right]
  | capture slot name body ih => exact absurd none (cons_ne_nil _ _)
  | rep body lo hi greed ih => simp only [number, ih none]
  | group body ih => simp only [number, ih none]
  | «scoped» on off body ih => simp only [number, ih none]
  | look behind negated body ih => simp only [number, ih none]
  | atomic body ih => simp only [number, ih none]
  | empty | one | run | ref | anchor | pasted => rfl

theorem captures_lit (word : String) : (lit word).captures = [] := by
  have fold (cs : List Char) (p : Node) (none : p.captures = []) :
      (cs.foldl (fun acc d => .seq acc (.one (.char d))) p).captures = [] := by
    induction cs generalizing p with
    | nil => exact none
    | cons c cs ih => exact ih _ (by simp [captures, none])
  unfold lit
  split
  · rfl
  · exact fold _ _ rfl

end Node

/-- The patterns of the groups with a number. -/
def Node.bodies (slot : Nat) : Node → List Node
  | .empty | .one _ | .run _ _ _ _ | .ref _ | .anchor _ | .pasted _ => []
  | .seq a b | .alt a b | .whenSet _ a b => a.bodies slot ++ b.bodies slot
  | .capture own _ body => (if own = slot then [body] else []) ++ body.bodies slot
  | .rep body _ _ _ | .group body | .scoped _ _ body | .look _ _ body | .atomic body => body.bodies slot

theorem Node.bodies_of_free {p : Node} {slot : Nat} (free : slot ∉ p.captures) : p.bodies slot = [] := by
  induction p with
  | capture own name body ih =>
    simp only [captures, mem_cons, not_or] at free
    simp [bodies, Ne.symm free.1, ih free.2]
  | _ => simp_all [captures, bodies]

/-- A relation between threads holds along a pattern if every step of the pattern keeps to it. -/
theorem Reaches.rel {S : Thread → Thread → Prop} (refl : ∀ t, S t t) (trans : ∀ t m t', S t m → S m t' → S t t')
    (moves : ∀ t n, S t { t with pos := t.pos + n })
    (looks : ∀ t n m, S { t with pos := t.pos - n } m → S t { m with pos := t.pos }) {p : Node} {o : Options}
    (reached : Reaches text p o t t') (sets : ∀ slot, ∀ body ∈ p.bodies slot, ∀ o u u', Reaches text body o u u' →
      S u' { u' with spans := u'.spans.setIfInBounds slot (some (u.pos, u'.pos)) }) : S t t' := by
  induction p generalizing o t t' with
  | empty => exact (show t' = t from reached) ▸ refl _
  | one s =>
    obtain ⟨c, -, -, rfl⟩ := reached
    exact moves t 1
  | run s lo hi greed =>
    obtain ⟨n, -, -, -, rfl⟩ := reached
    exact moves t n
  | seq a b iha ihb =>
    obtain ⟨m, left, right⟩ := reached
    exact trans _ _ _ (iha left fun slot body member => sets slot body (mem_append_left _ member))
      (ihb right fun slot body member => sets slot body (mem_append_right _ member))
  | alt a b iha ihb | whenSet _ a b iha ihb =>
    rcases reached with left | right
    · exact iha left fun slot body member => sets slot body (mem_append_left _ member)
    · exact ihb right fun slot body member => sets slot body (mem_append_right _ member)
  | rep body lo hi greed ih =>
    obtain ⟨n, -, -, rounds⟩ := reached
    exact rounds.rel refl trans fun _ _ round => ih round sets
  | capture own name body ih =>
    obtain ⟨m, inner, rfl⟩ := reached
    exact trans _ _ _ (ih inner fun slot body member => sets slot body (mem_append_right _ member))
      (sets own body (by simp [Node.bodies]) o t m inner)
  | group body ih | atomic body ih => exact ih reached sets
  | «scoped» on off body ih => exact ih reached sets
  | ref slot =>
    obtain ⟨start, stop, -, -, rfl⟩ := reached
    exact moves t _
  | anchor a => exact reached.2 ▸ refl _
  | look behind negated body ih =>
    cases negated with
    | true => exact (show t' = t from reached) ▸ refl _
    | false =>
      obtain ⟨-, m, inner, rfl⟩ := reached
      exact looks t _ m (ih inner sets)
  | pasted word => exact reached.2 ▸ moves t _

theorem Reaches.spans_rel {R : Array (Option (Nat × Nat)) → Array (Option (Nat × Nat)) → Prop} (refl : ∀ x, R x x)
    (trans : ∀ x y z, R x y → R y z → R x z) {p : Node} {o : Options} (reached : Reaches text p o t t')
    (sets : ∀ slot, ∀ body ∈ p.bodies slot, ∀ o u u', Reaches text body o u u' →
      R u'.spans (u'.spans.setIfInBounds slot (some (u.pos, u'.pos)))) : R t.spans t'.spans :=
  reached.rel (S := fun t t' => R t.spans t'.spans) (fun _ => refl _) (fun _ _ _ => trans _ _ _) (fun _ _ => refl _)
    (fun _ _ _ inside => inside) sets

section

variable {p : Node} {o : Options} (reached : Reaches text p o t t')
include reached

theorem Reaches.pos_le : t.pos ≤ t'.pos :=
  reached.rel (S := fun t t' => t.pos ≤ t'.pos) (fun _ => Nat.le_refl _) (fun _ _ _ => Nat.le_trans)
    (fun _ _ => Nat.le_add_right _ _) (fun _ _ _ _ => Nat.le_refl _) fun _ _ _ _ _ _ _ => Nat.le_refl _

/-- A pattern passes no fewer characters than its smallest width. -/
theorem Reaches.width_le : t.pos + (p.width []).1 ≤ t'.pos := by
  induction p generalizing o t t' with
  | one s =>
    obtain ⟨c, -, -, rfl⟩ := reached
    exact Nat.le_refl _
  | run s lo hi greed =>
    obtain ⟨n, least, -, -, rfl⟩ := reached
    exact Nat.add_le_add_left least _
  | seq a b iha ihb =>
    obtain ⟨m, front, back⟩ := reached
    have first := iha front
    have second := ihb back
    simp only [Node.width]
    omega
  | alt a b iha ihb | whenSet slot a b iha ihb =>
    have either : t.pos + (a.width []).1 ≤ t'.pos ∨ t.pos + (b.width []).1 ≤ t'.pos := reached.imp iha ihb
    simp only [Node.width]
    omega
  | rep body lo hi greed ih =>
    obtain ⟨n, least, -, rounds⟩ := reached
    have total : t.pos + n * (body.width []).1 ≤ t'.pos := by
      clear least
      induction n generalizing t with
      | zero => simp [show t' = t from rounds]
      | succ n more =>
        obtain ⟨m, first, others⟩ := rounds
        have here := ih first
        have later := more others
        rw [Nat.succ_mul]
        omega
    exact Nat.le_trans (Nat.add_le_add_left (Nat.mul_le_mul_right _ least) _) total
  | capture slot name body ih =>
    obtain ⟨m, inner, rfl⟩ := reached
    have passed := ih inner
    exact passed
  | group body ih | «scoped» on off body ih | atomic body ih => exact ih reached
  | pasted word =>
    obtain ⟨-, rfl⟩ := reached
    exact Nat.le_refl _
  | empty | anchor a | look behind negated body ih | ref slot => exact reached.pos_le

theorem Reaches.spans_size : t'.spans.size = t.spans.size :=
  reached.spans_rel (R := fun x y => y.size = x.size) (fun _ => rfl) (fun _ _ _ first second => second.trans first)
    fun _ _ _ _ _ _ _ => Array.size_setIfInBounds

end

theorem Reaches.span_eq {p : Node} {o : Options} {slot : Nat} (free : slot ∉ p.captures)
    (reached : Reaches text p o t t') : t'.spans[slot]? = t.spans[slot]? := by
  refine reached.spans_rel (R := fun x y => y[slot]? = x[slot]?) (fun _ => rfl)
    (fun _ _ _ first second => second.trans first) fun other body member _ _ _ _ => ?_
  have apart : other ≠ slot := by
    rintro rfl
    simp [Node.bodies_of_free free] at member
  exact Array.getElem?_setIfInBounds_ne apart

/-- A sequence of patterns without the last ones. -/
def Node.front : Nat → Node → Node
  | n + 1, .seq a _ => a.front n
  | _, p => p

theorem Reaches.front (n : Nat) {p : Node} {o : Options} (reached : Reaches text p o t t') :
    ∃ m, Reaches text (p.front n) o t m := by
  induction n generalizing p t' with
  | zero => exact ⟨t', reached⟩
  | succ n ih =>
    cases p with
    | seq a b =>
      obtain ⟨m, left, -⟩ := reached
      exact ih left
    | _ => exact ⟨t', reached⟩

/-- A match starts where a thread reaches its end through the pattern. -/
theorem Regex.matchAt_reaches {r : Regex} {nonempty : Bool} {m : Match} (found : r.matchAt text pos nonempty = some m) :
    ∃ t, Reaches text r.node r.options ⟨pos, Array.replicate r.slots none⟩ t ∧
      m = { source := text, start := pos, stop := t.pos, spans := t.spans, names := r.names } := by
  unfold Regex.matchAt at found
  split at found
  · simp at found
  · obtain ⟨t, success, rfl⟩ := map_eq_some_iff.mp found
    obtain ⟨t', reached, last⟩ := exec_reaches _ _ _ _ _ success
    split at last
    · simp at last
    · cases last
      exact ⟨t, reached, rfl⟩

theorem Regex.matchAt_front (n : Nat) {r : Regex} {nonempty : Bool} {m : Match}
    (found : r.matchAt text pos nonempty = some m) :
    ∃ t, Reaches text (r.node.front n) r.options ⟨pos, Array.replicate r.slots none⟩ t := by
  obtain ⟨t, reached, -⟩ := matchAt_reaches found
  exact reached.front n

/-- A place has a match if a thread reaches some end from there. -/
theorem Regex.exists_matchAt {r : Regex} (tried : r.node.backtracks = true) (room : pos + r.least ≤ text.size)
    (reached : Reaches text r.node r.options ⟨pos, Array.replicate r.slots none⟩ t) :
    ∃ m, r.matchAt text pos false = some m := by
  have success := exec_of_reaches _ _ _ _ (fun t => some t) tried reached rfl
  obtain ⟨t', runs⟩ := isSome_iff_exists.mp success
  refine ⟨{ source := text, start := pos, stop := t'.pos, spans := t'.spans, names := r.names }, ?_⟩
  simp only [Regex.matchAt, if_neg (Nat.not_lt.mpr room), Bool.false_and, Bool.false_eq_true, ↓reduceIte, runs,
    map_some]

end VhdlWorkbench.Pattern

import VhdlWorkbench.Proofs.Words

/-!
Matches in a text that goes on: a pattern that ends in a mark finds in it what it finds in the shorter one.
-/

namespace VhdlWorkbench.Pattern

open List Option String Match

variable {size lo n : Nat} {s : Single}

/-- Every way through the pattern is tried, and only the characters around its place decide on each step. -/
def Node.isNear : Node → Bool
  | .empty | .one _ | .ref _ => true
  | .run _ _ _ greed => greed != .possessive
  | .seq a b | .alt a b => a.isNear && b.isNear
  | .rep body lo hi greed => lo == 0 && hi == some 1 && greed == .greedy && body.isNear
  | .capture _ _ body | .group body => body.isNear
  | .anchor a => a == .lineStart || a == .textStart || a == .wordEdge
  | _ => false

/-- The groups of a thread end before its place or there. -/
def Thread.Closed (t : Thread) : Prop :=
  ∀ slot start stop : Nat, t.spans[slot]? = some (some (start, stop)) → stop ≤ t.pos

/-- Two continuations do the same, and fail from a place on. -/
structure Follows (size : Nat) (k k' : Continuation) : Prop where
  same : ∀ t, t.Closed → k' t = k t
  late : ∀ t, size ≤ t.pos → k t = none ∧ k' t = none

variable {o : Options} {cs tail : List Char} {t t' : Thread} {k k' : Continuation}

theorem Thread.Closed.move (closed : t.Closed) (n : Nat) : ({ t with pos := t.pos + n } : Thread).Closed :=
  fun slot start stop span => Nat.le_trans (closed slot start stop span) (Nat.le_add_right _ _)

theorem Thread.Closed.capture (closed : t'.Closed) (slot pos : Nat) :
    ({ t' with spans := t'.spans.setIfInBounds slot (some (pos, t'.pos)) } : Thread).Closed := by
  intro other start stop span
  dsimp only at span ⊢
  by_cases same : slot = other
  · subst same
    rw [Array.getElem?_setIfInBounds_self] at span
    split at span
    · simp only [some.injEq, Prod.mk.injEq] at span
      omega
    · simp at span
  · rw [Array.getElem?_setIfInBounds_ne same] at span
    exact closed other start stop span

theorem getElem?_longer {i : Nat} (inside : i < cs.length) : (cs ++ tail).toArray[i]? = cs.toArray[i]? := by
  rw [getElem?_toArray, getElem?_toArray, getElem?_append_left inside]

theorem segment_longer {start stop : Nat} (inside : stop ≤ cs.length) :
    segment (cs ++ tail).toArray start stop = segment cs.toArray start stop := by
  simp only [segment, Array.toList_extract, extract_eq_take_drop]
  by_cases forward : start ≤ stop
  · rw [drop_append_of_le_length (by omega), take_append_of_le_length (by rw [length_drop]; omega)]
  · rw [show stop - start = 0 by omega, take_zero, take_zero]

theorem exec_late {text : Array Char} (p : Node) (late : ∀ t, size ≤ t.pos → k t = none)
    (outside : size ≤ t.pos) : exec text p o t k = none := by
  cases found : exec text p o t k with
  | none => rfl
  | some r =>
    obtain ⟨t', reached, next⟩ := exec_reaches _ _ _ _ _ found
    have forward := reached.pos_le
    rw [late t' (by omega)] at next
    exact absurd next (by simp)

/-- A stretch of accepted characters has the same length in the longer text, or reaches the end of the shorter one. -/
theorem runLength_longer (tail : List Char) (o : Options) (s : Single) {limit limit' pos : Nat} (inside : pos + limit ≤ cs.length)
    (more : limit ≤ limit') (room : limit' = limit ∨ pos + limit = cs.length) :
    runLength cs.toArray o s limit pos ≤ runLength (cs ++ tail).toArray o s limit' pos ∧
      (runLength (cs ++ tail).toArray o s limit' pos = runLength cs.toArray o s limit pos ∨
        pos + runLength cs.toArray o s limit pos = cs.length) := by
  induction limit generalizing pos limit' with
  | zero =>
    refine ⟨Nat.zero_le _, ?_⟩
    rcases room with rfl | reaches
    · exact Or.inl rfl
    · exact Or.inr reaches
  | succ limit ih =>
    obtain ⟨limit', rfl⟩ : ∃ n, limit' = n + 1 := ⟨limit' - 1, by omega⟩
    have here : (cs ++ tail).toArray[pos]? = cs.toArray[pos]? := getElem?_longer (by omega)
    unfold runLength
    rw [here]
    split
    · exact ⟨Nat.le_refl _, Or.inl rfl⟩
    · split
      · have later := @ih limit' (pos + 1) (by omega) (by omega) (by omega)
        omega
      · exact ⟨Nat.le_refl _, Or.inl rfl⟩

theorem longestFirst_late (late : ∀ t, size ≤ t.pos → k t = none)
    (outside : size ≤ t.pos + lo) : longestFirst t lo k n = none := by
  induction n with
  | zero => exact late _ outside
  | succ n ih => rw [longestFirst, late _ (by dsimp only; omega), ih]

theorem longestFirst_drop {n' : Nat} (late : ∀ t, size ≤ t.pos → k t = none) (more : n ≤ n')
    (room : n' = n ∨ size ≤ t.pos + (lo + n)) : longestFirst t lo k n' = longestFirst t lo k n := by
  induction n' with
  | zero => rw [show n = 0 by omega]
  | succ n' ih =>
    by_cases last : n' + 1 = n
    · rw [last]
    · rw [longestFirst, late _ (by dsimp only; omega)]
      exact ih (by omega) (by omega)

theorem longestFirst_congr (same : ∀ i, k' { t with pos := t.pos + i } = k { t with pos := t.pos + i }) :
    longestFirst t lo k' n = longestFirst t lo k n := by
  induction n with
  | zero => exact same lo
  | succ n ih => rw [longestFirst, longestFirst, ih, Nat.add_assoc, Nat.add_assoc, same]

theorem shortestFirst_late {text : Array Char}
    (late : ∀ t, size ≤ t.pos → k t = none) (outside : size ≤ t.pos) : shortestFirst text o s k n t = none := by
  induction n generalizing t with
  | zero => exact late t outside
  | succ n ih =>
    rw [shortestFirst, late t outside]
    split
    · next found => exact absurd found (by simp)
    · split
      · rfl
      · split
        · exact ih (by dsimp only; omega)
        · rfl

theorem shortestFirst_longer {n' : Nat} (follows : Follows cs.length k k') (closed : t.Closed)
    (inside : t.pos ≤ cs.length) (more : n ≤ n') (room : n' = n ∨ t.pos + n = cs.length) :
    shortestFirst (cs ++ tail).toArray o s k' n' t = shortestFirst cs.toArray o s k n t := by
  induction n generalizing t n' with
  | zero =>
    rcases room with rfl | reaches
    · exact follows.same t closed
    · rw [shortestFirst_late (fun t outside => (follows.late t outside).2) (by omega), shortestFirst,
        (follows.late t (by omega)).1]
  | succ n ih =>
    obtain ⟨n', rfl⟩ : ∃ m, n' = m + 1 := ⟨n' - 1, by omega⟩
    by_cases last : t.pos = cs.length
    · rw [shortestFirst_late (fun t outside => (follows.late t outside).2) (by omega),
        shortestFirst_late (fun t outside => (follows.late t outside).1) (by omega)]
    · rw [shortestFirst, shortestFirst, follows.same t closed, getElem?_longer (by omega)]
      split
      · rfl
      · split
        · rfl
        · split
          · exact ih (closed.move 1) (by dsimp only; omega) (by omega) (by dsimp only; omega)
          · rfl

theorem runSingle_longer {hi : Option Nat} {greed : Greed}
    (tried : greed ≠ .possessive) (follows : Follows cs.length k k') (closed : t.Closed) (inside : t.pos < cs.length) :
    runSingle (cs ++ tail).toArray o s lo hi greed t k' = runSingle cs.toArray o s lo hi greed t k := by
  obtain ⟨limit, limit_eq⟩ : ∃ n, n = min (hi.getD (cs.toArray.size - t.pos)) (cs.toArray.size - t.pos) := ⟨_, rfl⟩
  obtain ⟨limit', limit'_eq⟩ :
    ∃ n, n = min (hi.getD ((cs ++ tail).toArray.size - t.pos)) ((cs ++ tail).toArray.size - t.pos) := ⟨_, rfl⟩
  have bounds : t.pos + limit ≤ cs.length ∧ limit ≤ limit' ∧ (limit' = limit ∨ t.pos + limit = cs.length) := by
    simp only [List.size_toArray, List.length_append] at limit_eq limit'_eq
    cases hi with
    | none =>
      simp only [getD_none] at limit_eq limit'_eq
      omega
    | some h =>
      simp only [getD_some] at limit_eq limit'_eq
      omega
  have late' : ∀ t, cs.length ≤ t.pos → k' t = none := fun t outside => (follows.late t outside).2
  simp only [runSingle, runLengthFrom_eq, Nat.zero_add, ← limit_eq, ← limit'_eq]
  cases greed with
  | greedy =>
    obtain ⟨more, room⟩ := runLength_longer tail o s bounds.1 bounds.2.1 bounds.2.2
    dsimp only
    by_cases short : runLength cs.toArray o s limit t.pos < lo
    · rw [if_pos short]
      split
      · rfl
      · have outside : cs.length ≤ t.pos + lo := by omega
        exact longestFirst_late late' outside
    · rw [if_neg short, if_neg (by omega), longestFirst_drop late' (Nat.sub_le_sub_right more lo) (by omega)]
      exact longestFirst_congr fun i => follows.same _ (closed.move i)
  | lazy =>
    have inner : t.pos + min lo limit ≤ cs.length := by omega
    have outer : min lo limit ≤ min lo limit' := by omega
    obtain ⟨more, room⟩ := runLength_longer tail o s inner outer (by omega)
    have short' := runLength_le cs.toArray o s (min lo limit) t.pos
    dsimp only
    by_cases short : runLength cs.toArray o s (min lo limit) t.pos < lo
    · rw [if_pos short]
      split
      · rfl
      · have outside : cs.length ≤ t.pos + lo := by omega
        exact shortestFirst_late late' outside
    · rw [if_neg short, if_neg (by omega)]
      exact shortestFirst_longer follows (closed.move lo) (by dsimp only; omega) (by omega) (by dsimp only; omega)
  | possessive => exact absurd rfl tried

theorem standsAt_longer {ps : List Char} {pos : Nat} (inside : pos + ps.length ≤ cs.length) :
    standsAt (cs ++ tail).toArray o ps pos = standsAt cs.toArray o ps pos := by
  induction ps generalizing pos with
  | nil => rfl
  | cons p ps ih =>
    rw [length_cons] at inside
    rw [standsAt, standsAt, getElem?_longer (by omega), ih (by omega)]

theorem standsAt_beyond {ps : List Char} {pos : Nat} (inside : pos ≤ cs.length)
    (outside : cs.length < pos + ps.length) : standsAt cs.toArray o ps pos = false := by
  induction ps generalizing pos with
  | nil => simp at outside; omega
  | cons p ps ih =>
    rw [length_cons] at outside
    rw [standsAt]
    split
    · rfl
    · next c there =>
      have bound : pos < cs.length := by simpa using (Array.getElem?_eq_some_iff.mp there).1
      rw [ih (by omega) (by omega), Bool.and_false]

theorem holds_longer {a : Anchor} {pos : Nat} (near : (Node.anchor a).isNear = true)
    (inside : pos < cs.length) : a.holds (cs ++ tail).toArray o pos = a.holds cs.toArray o pos := by
  have here : (cs ++ tail).toArray[pos]? = cs.toArray[pos]? := getElem?_longer inside
  have before : (cs ++ tail).toArray[pos - 1]? = cs.toArray[pos - 1]? := getElem?_longer (by omega)
  cases a <;> simp [Node.isNear] at near <;> simp only [Anchor.holds, here, before]

/-- A pattern does the same in a longer text if what follows it does, and fails behind the shorter text. -/
theorem exec_longer (p : Node) (near : p.isNear = true) (follows : Follows cs.length k k') :
    Follows cs.length (fun t => exec cs.toArray p o t k) (fun t => exec (cs ++ tail).toArray p o t k') := by
  have late (p : Node) {k k' : Continuation} (follows : Follows cs.length k k') (t : Thread)
      (outside : cs.length ≤ t.pos) : exec cs.toArray p o t k = none ∧ exec (cs ++ tail).toArray p o t k' = none :=
    ⟨exec_late p (fun t outside => (follows.late t outside).1) outside,
      exec_late p (fun t outside => (follows.late t outside).2) outside⟩
  refine ⟨?_, late p follows⟩
  intro t closed
  by_cases outside : cs.length ≤ t.pos
  · rw [(late p follows t outside).1, (late p follows t outside).2]
  · replace outside : t.pos < cs.length := Nat.lt_of_not_le outside
    induction p generalizing t k k' with
    | empty => exact follows.same t closed
    | one s =>
      simp only [exec, getElem?_longer outside]
      split
      · rfl
      · split
        · exact follows.same _ (closed.move 1)
        · rfl
    | run s lo hi greed =>
      exact runSingle_longer (by simpa [Node.isNear] using near) follows closed outside
    | seq a b iha ihb =>
      obtain ⟨first, second⟩ := Bool.and_eq_true_iff.mp near
      refine iha first ⟨fun t closed => ?_, late b follows⟩ t closed outside
      by_cases outside : cs.length ≤ t.pos
      · rw [(late b follows t outside).1, (late b follows t outside).2]
      · exact ihb second follows t closed (Nat.lt_of_not_le outside)
    | alt a b iha ihb =>
      obtain ⟨first, second⟩ := Bool.and_eq_true_iff.mp near
      simp only [exec, iha first follows t closed outside, ihb second follows t closed outside]
    | rep body lo hi greed ih =>
      simp only [Node.isNear, Bool.and_eq_true, beq_iff_eq] at near
      obtain ⟨⟨⟨rfl, rfl⟩, rfl⟩, inner⟩ := near
      have option (text : Array Char) (k : Continuation) :
          exec text (.rep body 0 (some 1) .greedy) o t k = (exec text body o t k).or (k t) := exec_optional body t k
      rw [option, option, ih inner follows t closed outside, follows.same t closed]
    | capture slot name body ih =>
      have inner : Follows cs.length (fun t' => k { t' with spans := t'.spans.setIfInBounds slot (some (t.pos, t'.pos)) })
          (fun t' => k' { t' with spans := t'.spans.setIfInBounds slot (some (t.pos, t'.pos)) }) :=
        ⟨fun t' closed => follows.same _ (closed.capture slot t.pos), fun t' outside => follows.late _ outside⟩
      exact ih near inner t closed outside
    | group body ih => exact ih near follows t closed outside
    | ref slot =>
      simp only [exec]
      split
      · next start stop span =>
        have ends := closed slot start stop span
        rw [segment_longer (by omega)]
        have size : (segment cs.toArray start stop).length = stop - start := by
          simp [segment]
          omega
        by_cases inside : t.pos + (stop - start) ≤ cs.length
        · rw [standsAt_longer (by omega), follows.same _ (closed.move _)]
        · rw [standsAt_beyond (Nat.le_of_lt outside) (by omega), if_neg Bool.false_ne_true]
          split
          · exact (follows.late _ (Nat.le_of_not_le inside)).2
          · rfl
      · rfl
    | anchor a =>
      simp only [exec, holds_longer near outside, follows.same t closed]
    | «scoped» | look | whenSet | atomic | pasted => simp [Node.isNear] at near

def Node.endsIn (mark : Char) : Node → Bool
  | .one (.char c) => c == mark
  | .seq a b => a.isNear && b.endsIn mark
  | _ => false

/-- A pattern that ends in a mark fails behind the shorter text if the mark does not stand there. -/
theorem exec_longer_of_endsIn {mark : Char} (p : Node) (ends : p.endsIn mark = true)
    (plain : ∀ c, charAccepts o mark c = true → c = mark) (absent : mark ∉ tail)
    (same : ∀ t, t.Closed → t.pos ≤ cs.length → k' t = k t) :
    Follows cs.length (fun t => exec cs.toArray p o t k) (fun t => exec (cs ++ tail).toArray p o t k') := by
  induction p with
  | one s =>
    cases s with
    | char c =>
      obtain rfl : c = mark := by simpa [Node.endsIn] using ends
      have short (t : Thread) (outside : cs.length ≤ t.pos) : exec cs.toArray (.one (.char c)) o t k = none := by
        rw [exec, getElem?_toArray, getElem?_eq_none outside]
      have long (t : Thread) (outside : cs.length ≤ t.pos) :
          exec (cs ++ tail).toArray (.one (.char c)) o t k' = none := by
        rw [exec, getElem?_toArray, getElem?_append_right outside]
        split
        · rfl
        · next d there =>
          rw [if_neg]
          intro accepted
          exact absent (plain d accepted ▸ mem_of_getElem? there)
      refine ⟨fun t closed => ?_, fun t outside => ⟨short t outside, long t outside⟩⟩
      by_cases inside : t.pos < cs.length
      · simp only [exec, getElem?_longer inside, same _ (closed.move 1) inside]
      · rw [short t (Nat.le_of_not_lt inside), long t (Nat.le_of_not_lt inside)]
    | _ => simp [Node.endsIn] at ends
  | seq a b iha ihb =>
    obtain ⟨first, second⟩ := Bool.and_eq_true_iff.mp ends
    exact exec_longer a first (ihb second)
  | _ => simp [Node.endsIn] at ends

namespace Regex

/-- The regex ends in a mark that stands for itself only, and a search tries every place. -/
structure EndsIn (r : Regex) (mark : Char) : Prop where
  ends : r.node.endsIn mark = true
  plain : ∀ c, charAccepts r.options mark c = true → c = mark
  opening : r.opening = none
  least : r.least = 0

namespace EndsIn

variable {r : Regex} {mark : Char} {m : Match} {pos : Nat}

theorem closed_replicate (slots pos : Nat) :
    ({ pos := pos, spans := Array.replicate slots none } : Thread).Closed := by
  intro slot start stop span
  rw [Array.getElem?_replicate] at span
  split at span <;> simp at span

theorem matchAt_longer (shape : r.EndsIn mark) (absent : mark ∉ tail) : r.matchAt (cs ++ tail).toArray pos false =
      (r.matchAt cs.toArray pos false).map fun m => { m with source := (cs ++ tail).toArray } := by
  have follows : Follows cs.length _ _ :=
    exec_longer_of_endsIn r.node shape.ends shape.plain absent fun t _ _ => (rfl : some t = some t)
  have same := follows.same _ (closed_replicate r.slots pos)
  have late := follows.late { pos := pos, spans := Array.replicate r.slots none }
  simp only [matchAt, shape.least, Bool.false_and, Bool.false_eq_true, if_false, Nat.add_zero]
  by_cases outside : cs.length < pos
  · simp [outside, late (Nat.le_of_lt outside)]
  · rw [if_neg (by simp; omega), if_neg (by simpa using outside), Option.map_map]
    exact congrArg _ same

theorem searchFrom_longer (shape : r.EndsIn mark) (absent : mark ∉ tail) (pos : Nat) :
    r.searchFrom (cs ++ tail).toArray pos false =
      (r.searchFrom cs.toArray pos false).map fun m => { m with source := (cs ++ tail).toArray } := by
  by_cases outside : cs.length < pos
  · have fails : ∀ i < tail.length + 1, r.matchAt (cs ++ tail).toArray (pos + i) false = none := by
      intro i _
      rw [shape.matchAt_longer absent]
      simp [matchAt, shape.least, show cs.length < pos + i by omega]
    rw [searchFrom_skip shape.opening fails, searchFrom_beyond (by simp; omega), searchFrom_beyond (by simpa using outside)]
    rfl
  · have inside : pos ≤ cs.length := Nat.le_of_not_lt outside
    have step : r.searchFrom cs.toArray pos false = _ := searchFrom_step shape.opening (by simpa using inside)
    rw [searchFrom_step shape.opening (by simp; omega), step, map_or, shape.matchAt_longer absent,
      shape.searchFrom_longer absent (pos + 1)]
termination_by cs.length + 1 - pos

theorem stop_le (shape : r.EndsIn mark) {b : Bool} (found : r.matchAt cs.toArray pos b = some m)
    {slot start stop : Nat} (span : m.span? slot = some (start, stop)) : stop ≤ cs.length := by
  classical
  -- a continuation that refuses the other threads does the same
  have follows : Follows cs.length (fun t => exec cs.toArray r.node r.options t fun t => if b && t.pos == pos then none else some t)
      (fun t => exec (cs ++ []).toArray r.node r.options t fun t =>
        if t.Closed ∧ t.pos ≤ cs.length then if b && t.pos == pos then none else some t else none) :=
    exec_longer_of_endsIn r.node shape.ends shape.plain not_mem_nil fun t closed inside => if_pos ⟨closed, inside⟩
  have same := follows.same _ (closed_replicate r.slots pos)
  rw [append_nil] at same
  simp only [matchAt, shape.least, Nat.add_zero] at found
  split at found
  · simp at found
  · rw [← same, map_eq_some_iff] at found
    obtain ⟨t, run, rfl⟩ := found
    obtain ⟨t', -, last⟩ := exec_reaches _ _ _ _ _ run
    split at last
    · next good =>
      split at last
      · simp at last
      · obtain rfl := some.inj last
        rw [span?] at span
        split at span
        · simp only [some.injEq, Prod.mk.injEq] at span
          omega
        · exact Nat.le_trans (good.1 slot start stop (join_eq_some_iff.mp span)) good.2
    · simp at last

theorem named_longer (shape : r.EndsIn mark) {b : Bool} (found : r.matchAt cs.toArray pos b = some m) (name : String) :
    ({ m with source := (cs ++ tail).toArray } : Match).named name = m.named name := by
  have source : m.source = cs.toArray := by
    rw [matchAt] at found
    split at found
    · simp at found
    · obtain ⟨t, -, rfl⟩ := map_eq_some_iff.mp found
      rfl
  have group (slot : Nat) : ({ m with source := (cs ++ tail).toArray } : Match).group? slot = m.group? slot := by
    rw [group?, group?, source]
    refine map_congr ?_
    rintro ⟨start, stop⟩ span
    exact congrArg ofList (segment_longer (shape.stop_le found span))
  rw [named, named, named?, named?, funext group]

end EndsIn

section

variable {r : Regex} {mark : Char} {tail : String} (shape : r.EndsIn mark) (absent : mark ∉ tail.toList)
include shape absent

/-- A regex that ends in a mark finds in a longer text what it finds in the shorter one. -/
theorem search?_longer {m : Match} {block : String} (found : r.search? block = some m) :
    ∃ m', r.search? (block ++ tail) = some m' ∧ ∀ name, m'.named name = m.named name := by
  obtain ⟨pos, b, there⟩ := exists_matchAt_of_search found
  refine ⟨{ m with source := (block.toList ++ tail.toList).toArray }, ?_, shape.named_longer there⟩
  rw [search?] at found ⊢
  rw [toList_append, shape.searchFrom_longer absent, found, map_some]

theorem matchStart?_longer {m : Match} {block : String} (found : r.matchStart? block = some m) :
    ∃ m', r.matchStart? (block ++ tail) = some m' ∧ ∀ name, m'.named name = m.named name := by
  rw [matchStart?] at found ⊢
  refine ⟨{ m with source := (block.toList ++ tail.toList).toArray }, ?_, shape.named_longer found⟩
  rw [toList_append, shape.matchAt_longer absent, found, map_some]

end

end Regex

end VhdlWorkbench.Pattern

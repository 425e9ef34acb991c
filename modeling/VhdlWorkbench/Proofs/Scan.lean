import Mathlib.Data.List.Chain
import Mathlib.Data.List.Forall2
import VhdlWorkbench.Proofs.Characters
import VhdlWorkbench.Proofs.Reach

/-!
Running a pattern over a text that is known from a place on.
-/

/-- A text is at its end or goes on with a character of another kind. -/
@[simp] abbrev VhdlWorkbench.Stops (p : Char → Bool) (cs : List Char) : Prop :=
  ∀ c, cs.head? = some c → p c = false

namespace VhdlWorkbench.Pattern

open List String Option Text

variable {pos start stop lo n slot fuel : Nat} {seg tail cs : List Char} {c : Char} {p : Char → Bool} {t t' : Thread}
  {k : Continuation} {s : Single} {word : String} {m : Match} {nonempty : Bool}

def textFrom (text : Array Char) (pos : Nat) : List Char :=
  text.toList.drop pos

variable {text : Array Char} {o : Options}

@[simp] theorem textFrom_zero (cs : List Char) : textFrom cs.toArray 0 = cs := by
  simp [textFrom]

theorem textFrom_length (text : Array Char) (pos : Nat) : (textFrom text pos).length = text.size - pos := by
  simp [textFrom]

theorem textFrom_add (text : Array Char) (pos n : Nat) : textFrom text (pos + n) = (textFrom text pos).drop n := by
  simp [textFrom, drop_drop]

theorem textFrom_append (here : textFrom text pos = seg ++ tail) : textFrom text (pos + seg.length) = tail := by
  rw [textFrom_add, here, drop_left]

theorem textFrom_cons (here : textFrom text pos = c :: tail) : textFrom text (pos + 1) = tail :=
  textFrom_append (show _ = [c] ++ tail from here)

theorem getElem?_textFrom (text : Array Char) (pos i : Nat) : text[pos + i]? = (textFrom text pos)[i]? := by
  simp [textFrom, getElem?_drop]

theorem getElem?_of_textFrom (here : textFrom text pos = cs) (i : Nat) : text[pos + i]? = cs[i]? := by
  rw [getElem?_textFrom, here]

theorem head?_of_textFrom (here : textFrom text pos = cs) : text[pos]? = cs.head? := by
  rw [← here, head?_eq_getElem?, ← getElem?_textFrom, Nat.add_zero]

theorem textFrom_of_getElem? (there : text[pos]? = some c) : textFrom text pos = c :: textFrom text (pos + 1) := by
  obtain ⟨bound, rfl⟩ := Array.getElem?_eq_some_iff.mp there
  simp only [textFrom, drop_eq_getElem_cons (show pos < text.toList.length by simpa using bound),
    Array.getElem_toList]

theorem segment_eq_take (text : Array Char) (start stop : Nat) :
    segment text start stop = (textFrom text start).take (stop - start) := by
  simp [segment, textFrom, take_drop]

theorem textFrom_split (forward : start ≤ stop) :
    textFrom text start = segment text start stop ++ textFrom text stop := by
  obtain ⟨n, rfl⟩ := Nat.exists_eq_add_of_le forward
  rw [segment_eq_take, textFrom_add, Nat.add_sub_cancel_left, take_append_drop]

theorem mem_of_mem_segment (member : c ∈ segment text start stop) : c ∈ text.toList := by
  simp only [segment, Array.toList_extract, extract_eq_take_drop] at member
  exact mem_of_mem_drop (mem_of_mem_take member)

theorem segment_of_textFrom (here : textFrom text pos = seg ++ tail) : segment text pos (pos + seg.length) = seg := by
  rw [segment_eq_take, here, Nat.add_sub_cancel_left, take_left]

theorem lt_size_of_textFrom (here : textFrom text pos = cs) (nonempty : cs ≠ []) : pos < text.size := by
  have length := textFrom_length text pos
  have positive := length_pos_iff.mpr nonempty
  rw [here] at length
  omega

theorem pos_unique {pos' : Nat} (here : textFrom text pos = cs)
    (there : textFrom text pos' = cs) (nonempty : cs ≠ []) : pos = pos' := by
  have positive := length_pos_iff.mpr nonempty
  have length := textFrom_length text pos
  have length' := textFrom_length text pos'
  rw [here] at length
  rw [there] at length'
  omega

theorem getElem?_last_of_textFrom (here : textFrom text pos = seg ++ tail) (last : seg.getLast? = some c) :
    pos + seg.length ≠ 0 ∧ text[pos + seg.length - 1]? = some c := by
  have positive : 0 < seg.length := by
    cases seg with
    | nil => simp at last
    | cons d seg => simp
  refine ⟨by omega, ?_⟩
  rw [show pos + seg.length - 1 = pos + (seg.length - 1) by omega, getElem?_of_textFrom here,
    getElem?_append_left (by omega), ← getLast?_eq_getElem?, last]

theorem runLength_eq (s : Single) (limit pos : Nat) : runLength text o s limit pos =
      (((textFrom text pos).take limit).takeWhile (s.accepts o)).length := by
  induction limit generalizing pos with
  | zero => simp [runLength]
  | succ limit ih =>
    unfold runLength
    have next := textFrom_add text pos 1
    rw [head?_of_textFrom rfl]
    cases here : textFrom text pos with
    | nil => rfl
    | cons c rest =>
      rw [here, drop_succ_cons, drop_zero] at next
      simp only [head?_cons, take_succ_cons, takeWhile_cons]
      split
      · rw [ih, next, length_cons]
      · rfl

theorem takeWhile_append_of_stop (taken : ∀ c ∈ seg, p c = true) (stops : Stops p tail) :
    (seg ++ tail).takeWhile p = seg := by
  rw [takeWhile_append_of_pos taken]
  cases tail with
  | nil => simp
  | cons c tail => simp [stops c rfl]

theorem longestFirst_of_late {r : Thread} {i : Nat} (inside : i ≤ n)
    (late : ∀ j, i < j → j ≤ n → k { t with pos := t.pos + (lo + j) } = none)
    (next : k { t with pos := t.pos + (lo + i) } = some r) : longestFirst t lo k n = some r := by
  induction n with
  | zero =>
    obtain rfl : i = 0 := by omega
    exact next
  | succ n ih =>
    unfold longestFirst
    by_cases last : i = n + 1
    · rw [last, show t.pos + (lo + (n + 1)) = t.pos + lo + n + 1 by omega] at next
      rw [next]
    · have fails := late (n + 1) (by omega) (Nat.le_refl _)
      rw [show t.pos + (lo + (n + 1)) = t.pos + lo + n + 1 by omega] at fails
      rw [fails]
      exact ih (by omega) fun j after before => late j after (by omega)

section

variable (here : textFrom text t.pos = seg ++ tail)
include here

/-- A greedy repetition gives accepted characters back until what follows succeeds. -/
theorem exec_run_of_late {i : Nat} {r : Thread} (taken : ∀ c ∈ seg, s.accepts o c = true)
    (stops : Stops (s.accepts o) tail) (enough : lo ≤ i) (inside : i ≤ seg.length)
    (late : ∀ j, i < j → j ≤ seg.length → k { t with pos := t.pos + j } = none)
    (next : k { t with pos := t.pos + i } = some r) : exec text (.run s lo none .greedy) o t k = some r := by
  have size : text.size - t.pos = (seg ++ tail).length := by rw [← textFrom_length, here]
  simp only [exec, runSingle, runLengthFrom_eq, runLength_eq, getD_none, Nat.min_self,
    Nat.zero_add, here, size, take_length, takeWhile_append_of_stop taken stops]
  rw [if_neg (by omega)]
  refine longestFirst_of_late (i := i - lo) (by omega) ?_ (by rwa [show lo + (i - lo) = i by omega])
  intro j after before
  exact late (lo + j) (by omega) (by omega)

/-- A greedy repetition takes the longest stretch of accepted characters if what follows succeeds. -/
theorem exec_run_of_segment {r : Thread} (taken : ∀ c ∈ seg, s.accepts o c = true)
    (stops : Stops (s.accepts o) tail) (enough : lo ≤ seg.length)
    (next : k { t with pos := t.pos + seg.length } = some r) :
    exec text (.run s lo none .greedy) o t k = some r := by
  refine exec_run_of_late here taken stops enough (Nat.le_refl _) ?_ next
  intro j after before
  omega

theorem exec_run_of_short (stops : Stops (s.accepts o) tail) (short : seg.length < lo) :
    exec text (.run s lo none .greedy) o t k = none := by
  cases success : exec text (.run s lo none .greedy) o t k with
  | none => rfl
  | some r =>
    obtain ⟨_, ⟨n, enough, -, taken, -⟩, -⟩ := exec_reaches _ _ _ _ _ success
    obtain ⟨c, found, accepted⟩ := taken seg.length (by omega)
    rw [getElem?_of_textFrom here, getElem?_append_right (Nat.le_refl _), Nat.sub_self,
      ← head?_eq_getElem?] at found
    rw [stops c found] at accepted
    exact absurd accepted Bool.false_ne_true

theorem exec_run_exactly (taken : ∀ c ∈ seg, s.accepts o c = true) :
    exec text (.run s seg.length (some seg.length) .greedy) o t k = k { t with pos := t.pos + seg.length } := by
  have size : text.size - t.pos = (seg ++ tail).length := by rw [← textFrom_length, here]
  have limit : min seg.length (seg ++ tail).length = seg.length := by simp
  have all := takeWhile_append_of_stop taken (show ∀ c, [].head? = some c → _ by simp)
  rw [append_nil] at all
  simp only [exec, runSingle, runLengthFrom_eq, runLength_eq, getD_some, Nat.zero_add, here, size, limit,
    take_left, all, Nat.lt_irrefl, if_false, Nat.sub_self]
  rfl

end

/-- A stretch of characters of one kind that ends at a character of another kind has one length. -/
theorem run_length_unique (here : textFrom text pos = seg ++ tail) (kind : ∀ d ∈ seg, p d = true)
    (stops : Stops p tail)
    (taken : ∀ i < n, ∃ d, text[pos + i]? = some d ∧ p d = true) (stop : text[pos + n]? = some c)
    (other : p c = false) : n = seg.length := by
  rcases Nat.lt_trichotomy n seg.length with short | equal | long
  · rw [getElem?_of_textFrom here, getElem?_append_left short] at stop
    rw [kind c (mem_of_getElem? stop)] at other
    exact absurd other (by decide)
  · exact equal
  · obtain ⟨d, there, same⟩ := taken seg.length long
    rw [head?_of_textFrom (textFrom_append here)] at there
    rw [stops d there] at same
    exact absurd same (by decide)

theorem cut_unique {a b a' b' : List Char} (same : a ++ b = a' ++ b')
    (taken : ∀ c ∈ a, p c = true) (stops : Stops p b)
    (taken' : ∀ c ∈ a', p c = true) (stops' : Stops p b') : a = a' ∧ b = b' := by
  have front : a = a' := by
    rw [← takeWhile_append_of_stop taken stops, same, takeWhile_append_of_stop taken' stops']
  subst front
  exact ⟨rfl, append_cancel_left same⟩

theorem reaches_run {hi : Option Nat} {greed : Greed} (reached : Reaches text (.run s lo hi greed) o t t') :
    ∃ seg, textFrom text t.pos = seg ++ textFrom text t'.pos ∧ (∀ c ∈ seg, s.accepts o c = true) ∧
      lo ≤ seg.length ∧ (∀ h, hi = some h → seg.length ≤ h) ∧ t' = { t with pos := t.pos + seg.length } := by
  obtain ⟨n, enough, most, taken, rfl⟩ := reached
  have size : ((textFrom text t.pos).take n).length = n := by
    cases n with
    | zero => simp
    | succ n =>
      obtain ⟨c, there, -⟩ := taken n (by omega)
      obtain ⟨bound, -⟩ := Array.getElem?_eq_some_iff.mp there
      rw [length_take, textFrom_length]
      omega
  refine ⟨(textFrom text t.pos).take n, ?_, ?_, by omega, by rwa [size], by rw [size]⟩
  · rw [textFrom_add, take_append_drop]
  · intro c member
    obtain ⟨i, inside, rfl⟩ := mem_iff_getElem.mp member
    obtain ⟨d, there, accepted⟩ := taken i (by omega)
    rw [getElem?_textFrom] at there
    obtain ⟨_, same⟩ := List.getElem?_eq_some_iff.mp there
    rwa [getElem_take, same]

section

variable (here : textFrom text t.pos = seg ++ tail) (taken : ∀ c ∈ seg, s.accepts o c = true)
include here taken

theorem shortestFirst_of_late {r : Thread} (room : seg.length ≤ n)
    (early : ∀ i < seg.length, k { t with pos := t.pos + i } = none)
    (next : k { t with pos := t.pos + seg.length } = some r) : shortestFirst text o s k n t = some r := by
  induction seg generalizing n t with
  | nil =>
    cases n with
    | zero => exact next
    | succ n =>
      unfold shortestFirst
      rw [show k t = some r from next]
  | cons c seg ih =>
    obtain ⟨n, rfl⟩ : ∃ m, n = m + 1 := ⟨n - 1, by simp only [length_cons] at room; omega⟩
    have first := early 0 (by simp)
    unfold shortestFirst
    rw [show k t = none from first, head?_of_textFrom here]
    simp only [cons_append, head?_cons, taken c (by simp), ↓reduceIte]
    apply ih
    · exact textFrom_cons here
    · exact fun d member => taken d (mem_cons_of_mem c member)
    · simpa using room
    · intro i inside
      have := early (i + 1) (by simpa using inside)
      rwa [show t.pos + (i + 1) = t.pos + 1 + i by omega] at this
    · rwa [length_cons, show t.pos + (seg.length + 1) = t.pos + 1 + seg.length by omega] at next

theorem exec_lazy_of_segment {r : Thread} (enough : lo ≤ seg.length)
    (early : ∀ i, lo ≤ i → i < seg.length → k { t with pos := t.pos + i } = none)
    (next : k { t with pos := t.pos + seg.length } = some r) :
    exec text (.run s lo none .lazy) o t k = some r := by
  have size : text.size - t.pos = (seg ++ tail).length := by rw [← textFrom_length, here]
  have room : lo ≤ text.size - t.pos := by
    rw [size, List.length_append]
    omega
  have least : ((textFrom text t.pos).take lo).takeWhile (s.accepts o) = seg.take lo := by
    have kept : (seg.take lo ++ []).takeWhile (s.accepts o) = seg.take lo ++ [].takeWhile (s.accepts o) :=
      takeWhile_append_of_pos fun c member => taken c (mem_of_mem_take member)
    rw [here, take_append_of_le_length enough]
    simpa using kept
  have rest : textFrom text (t.pos + lo) = seg.drop lo ++ tail := by
    rw [textFrom_add, here, drop_append_of_le_length enough]
  simp only [exec, runSingle, runLengthFrom_eq, runLength_eq, getD_none, Nat.min_self, Nat.zero_add,
    Nat.min_eq_left room, least, length_take, Nat.min_eq_left enough, Nat.lt_irrefl, ↓reduceIte]
  refine shortestFirst_of_late rest (fun c member => taken c (mem_of_mem_drop member)) ?_ ?_ ?_
  · rw [size, List.length_append, List.length_drop]
    omega
  · intro i inside
    rw [length_drop] at inside
    simpa only [Nat.add_assoc] using early (lo + i) (by omega) (by omega)
  · simpa only [length_drop, Nat.add_assoc, Nat.add_sub_cancel' enough] using next

theorem exec_few_of_segment {r : Thread} (early : ∀ i < seg.length, k { t with pos := t.pos + i } = none)
    (next : k { t with pos := t.pos + seg.length } = some r) : exec text (Node.few s) o t k = some r :=
  exec_lazy_of_segment here taken (Nat.zero_le _) (fun i _ => early i) next

end

theorem lineStart_holds_iff (lines : o.multiline = true) (pos : Nat) :
    Anchor.holds text o .lineStart pos = true ↔ pos = 0 ∨ text[pos - 1]? = some '\n' := by
  by_cases first : pos = 0 <;> simp [Anchor.holds, lines, first]

theorem wordEdge_behind_iff [Full o] (here : textFrom text pos = seg ++ tail) (nonempty : seg ≠ [])
    (wordy : ∀ c ∈ seg, isWord c = true) : Anchor.holds text o .wordEdge (pos + seg.length) = true ↔
      Stops isWord tail := by
  have positive := length_pos_iff.mpr nonempty
  have last := (getElem?_last_of_textFrom here (getLast?_eq_some_getLast nonempty)).2
  have next : text[pos + seg.length]? = tail.head? := head?_of_textFrom (textFrom_append here)
  have before := wordy _ (getLast_mem nonempty)
  simp only [Anchor.holds, next, show pos + seg.length ≠ 0 by omega, ↓reduceIte, last,
    map_some, getD_some, Category.accepts, Full.full, Bool.not_false, Bool.true_or,
    Bool.true_and, before, Stops]
  cases tail.head? with
  | none => simp
  | some c => simp [Category.accepts, Full.full]

theorem wordEdge_before_iff [Full o] (here : text[pos]? = some c) (wordy : isWord c = true) :
    Anchor.holds text o .wordEdge pos = true ↔
      ∀ d, text[pos - 1]? = some d → pos ≠ 0 → isWord d = false := by
  by_cases first : pos = 0
  · subst first
    simp [Anchor.holds, here, Category.accepts, Full.full, wordy]
  · simp only [Anchor.holds, first, ↓reduceIte, here, map_some, getD_some, Category.accepts, Full.full,
      Bool.not_false, Bool.true_or, Bool.true_and, wordy]
    cases before : text[pos - 1]? with
    | none => simp
    | some d => simp [Category.accepts, Full.full, first]

/-- The characters of a text stand at a place exactly if they are accepted one by one. -/
theorem wordStandsAt_iff (ps : List Char) (pos : Nat) : wordStandsAt text o ps pos = true ↔
      ∃ cs tail, textFrom text pos = cs ++ tail ∧
        Forall₂ (fun p c => charAccepts o p c = true) ps cs := by
  induction ps generalizing pos with
  | nil => simp [wordStandsAt]
  | cons p ps ih =>
    unfold wordStandsAt
    rw [head?_of_textFrom rfl]
    have next := textFrom_add text pos 1
    cases here : textFrom text pos with
    | nil => simp
    | cons c rest =>
      rw [here, drop_succ_cons, drop_zero] at next
      simp only [head?_cons, Bool.and_eq_true, Single.accepts, ih, next]
      constructor
      · rintro ⟨accepted, cs, tail, rfl, pairs⟩
        exact ⟨c :: cs, tail, rfl, .cons accepted pairs⟩
      · rintro ⟨_, tail, split, pairs⟩
        cases pairs with
        | cons accepted pairs =>
          obtain ⟨rfl, rfl⟩ := cons.inj split
          exact ⟨accepted, _, tail, rfl, pairs⟩

theorem wordStandsAt_of_forall₂ {ps : List Char} (here : textFrom text pos = cs ++ tail)
    (pairs : Forall₂ (fun p c => charAccepts o p c = true) ps cs) : wordStandsAt text o ps pos = true :=
  (wordStandsAt_iff ps pos).mpr ⟨cs, tail, here, pairs⟩

/-- Where case counts, characters stand at a place exactly if the text goes on with them. -/
theorem wordStandsAt_cased_iff (cased : o.ignoreCase = false) {ps : List Char} :
    wordStandsAt text o ps pos = true ↔ ∃ tail, textFrom text pos = ps ++ tail := by
  have same {cs : List Char} : Forall₂ (fun p c => charAccepts o p c = true) ps cs ↔ cs = ps := by
    simp only [charAccepts, cased, Bool.false_eq_true, ↓reduceIte, beq_iff_eq, forall₂_eq_eq_eq]
    exact eq_comm
  rw [wordStandsAt_iff]
  constructor
  · rintro ⟨cs, tail, here, pairs⟩
    exact ⟨tail, same.mp pairs ▸ here⟩
  · rintro ⟨tail, here⟩
    exact ⟨ps, tail, here, same.mpr rfl⟩

theorem wordStandsAt_append (ps qs : List Char) (pos : Nat) : wordStandsAt text o (ps ++ qs) pos =
      (wordStandsAt text o ps pos && wordStandsAt text o qs (pos + ps.length)) := by
  induction ps generalizing pos with
  | nil => simp [wordStandsAt]
  | cons p ps ih =>
    simp only [cons_append, wordStandsAt]
    split
    · rfl
    · rw [ih, Bool.and_assoc, length_cons, show pos + 1 + ps.length = pos + (ps.length + 1) by omega]

theorem exec_lit_fold (cs : List Char) (word : List Char) (node : Node) (runs : ∀ t k, exec text node o t k =
      if wordStandsAt text o word t.pos then k { t with pos := t.pos + word.length } else none)
    (t : Thread) (k : Continuation) : exec text (cs.foldl (fun acc d => .seq acc (.one (.char d))) node) o t k =
      if wordStandsAt text o (word ++ cs) t.pos then
        k { t with pos := t.pos + (word ++ cs).length } else none := by
  induction cs generalizing word node with
  | nil => simpa using runs t k
  | cons c cs ih =>
    rw [foldl_cons, ih (word ++ [c])]
    · simp
    · intro t k
      rw [exec, runs]
      simp only [wordStandsAt_append, exec, wordStandsAt]
      cases wordStandsAt text o word t.pos with
      | false => simp
      | true =>
        cases text[t.pos + word.length]? with
        | none => simp
        | some d => simp [Single.accepts, Nat.add_assoc]

theorem exec_lit (word : String) (t : Thread) (k : Continuation) : exec text (Node.lit word) o t k =
      if wordStandsAt text o word.toList t.pos then k { t with pos := t.pos + word.length }
      else none := by
  rw [← String.length_toList]
  unfold Node.lit
  cases word.toList with
  | nil => simp [exec, wordStandsAt]
  | cons c cs =>
    simp only
    rw [exec_lit_fold cs [c]]
    · simp
    · intro t k
      simp only [exec, wordStandsAt, List.length_singleton, Bool.and_true]
      cases text[t.pos]? <;> simp

theorem exec_lit_of_forall₂ {r : Thread} (here : textFrom text t.pos = cs ++ tail)
    (pairs : Forall₂ (fun p c => charAccepts o p c = true) word.toList cs)
    (next : k { t with pos := t.pos + cs.length } = some r) : exec text (Node.lit word) o t k = some r := by
  rw [exec_lit, wordStandsAt_of_forall₂ here pairs, if_pos rfl, ← String.length_toList,
    pairs.length_eq, next]

theorem exec_lit_of_cased (cased : o.ignoreCase = false) {r : Thread} (here : textFrom text t.pos = word.toList ++ tail)
    (next : k { t with pos := t.pos + word.length } = some r) : exec text (Node.lit word) o t k = some r := by
  rw [exec_lit, (wordStandsAt_cased_iff cased).mpr ⟨tail, here⟩, if_pos rfl, next]

theorem reaches_lit_fold (cs : List Char) (word : List Char) (node : Node)
    (reach : ∀ t t', Reaches text node o t t' →
      wordStandsAt text o word t.pos = true ∧ t' = { t with pos := t.pos + word.length })
    (reached : Reaches text (cs.foldl (fun acc d => .seq acc (.one (.char d))) node) o t t') :
    wordStandsAt text o (word ++ cs) t.pos = true ∧
      t' = { t with pos := t.pos + (word ++ cs).length } := by
  induction cs generalizing word node with
  | nil => simpa using reach t t' reached
  | cons c cs ih =>
    have more := ih (word ++ [c]) (.seq node (.one (.char c))) ?_ reached
    · simpa using more
    · rintro u u' ⟨m, first, d, there, accepted, rfl⟩
      obtain ⟨stands, rfl⟩ := reach u m first
      refine ⟨?_, by simp [Nat.add_assoc]⟩
      rw [wordStandsAt_append, stands]
      simpa [wordStandsAt, there] using accepted

theorem reaches_lit (reached : Reaches text (Node.lit word) o t t') :
    wordStandsAt text o word.toList t.pos = true ∧ t' = { t with pos := t.pos + word.length } := by
  rw [← String.length_toList]
  unfold Node.lit at reached
  cases letters : word.toList with
  | nil =>
    rw [letters] at reached
    exact ⟨rfl, reached⟩
  | cons c cs =>
    rw [letters] at reached
    have more := reaches_lit_fold cs [c] (.one (.char c)) ?_ reached
    · simpa using more
    · rintro u u' ⟨d, there, accepted, rfl⟩
      exact ⟨by simpa [wordStandsAt, there] using accepted, rfl⟩

/-- The first character of a literal is accepted where the literal is reached through. -/
theorem accepts_of_reaches_lit {p : Char}
    (reached : Reaches text (Node.lit word) o t t') (first : word.toList.head? = some p) :
    ∃ c, text[t.pos]? = some c ∧ charAccepts o p c = true := by
  obtain ⟨cs, tail, here, pairs⟩ := (wordStandsAt_iff _ _).mp (reaches_lit reached).1
  generalize word.toList = ps at first pairs
  cases pairs with
  | nil => simp at first
  | cons accepted pairs =>
    obtain rfl := some.inj first
    exact ⟨_, by rw [head?_of_textFrom here]; rfl, accepted⟩

theorem exec_lit_of_head {p : Char} (here : textFrom text t.pos = c :: cs) (first : word.toList.head? = some p)
    (other : charAccepts o p c = false) : exec text (Node.lit word) o t k = none := by
  cases success : exec text (Node.lit word) o t k with
  | none => rfl
  | some r =>
    obtain ⟨t', reached, -⟩ := exec_reaches _ _ _ _ _ success
    obtain ⟨d, there, accepted⟩ := accepts_of_reaches_lit reached first
    obtain rfl := some.inj ((head?_of_textFrom here).symm.trans there)
    rw [other] at accepted
    exact absurd accepted Bool.false_ne_true

theorem exec_seq (a b : Node) (t : Thread) (k : Continuation) :
    exec text (a ++ b) o t k = exec text a o t fun t' => exec text b o t' k :=
  rfl

theorem exec_capture (slot : Nat) (name : Option String) (body : Node) (t : Thread) (k : Continuation) :
    exec text (.capture slot name body) o t k =
      exec text body o t fun t' =>
        k { t' with spans := t'.spans.setIfInBounds slot (some (t.pos, t'.pos)) } :=
  rfl

theorem exec_anchor_of_holds {a : Anchor} (holds : a.holds text o t.pos = true) : exec text (.anchor a) o t k = k t := by
  simp [exec, holds]

theorem reaches_seq {a b : Node} (reached : Reaches text (a ++ b) o t t') :
    ∃ m, Reaches text a o t m ∧ Reaches text b o m t' :=
  reached

/-- The second of two patterns is tried where the first does not lead to a success. -/
theorem exec_alt (a b : Node) (t : Thread) (k : Continuation) :
    exec text (.alt a b) o t k = (exec text a o t k).or (exec text b o t k) := by
  rw [exec]
  cases exec text a o t k <;> rfl

/-- An option takes its pattern if that leads to a success, and is passed over otherwise. -/
theorem exec_optional (body : Node) (t : Thread) (k : Continuation) :
    exec text (Node.optional body) o t k = (exec text body o t k).or (k t) := by
  have last (fuel : Nat) (t' : Thread) :
      repeatGreedy (exec text body o) k fuel (some 0) t' = k t' := by
    cases fuel <;> simp [repeatGreedy]
  simp only [Node.optional, exec, exactly, repeatGreedy, map_some, Nat.sub_zero,
    Nat.sub_self, last, ite_self]
  rw [if_neg (by simp)]
  cases exec text body o t k <;> simp

theorem exec_optional_of_some {body : Node} {r : Thread}
    (taken : exec text body o t k = some r) : exec text (Node.optional body) o t k = some r := by
  rw [exec_optional, taken, some_or]

theorem exec_optional_of_none {body : Node} {r : Thread} (fails : exec text body o t k = none) (next : k t = some r) :
    exec text (Node.optional body) o t k = some r := by
  rw [exec_optional, fails, none_or, next]

section

variable {name : String} (listed : m.names.lookup name = some (slot + 1))
  (span : m.spans[slot + 1]? = some (some (start, stop)))
include listed span

theorem Match.named?_eq_segment : m.named? name = some (ofList (segment m.source start stop)) := by
  simp only [Match.named?, listed, bind_some, Match.group?, Match.span?, Nat.add_one_ne_zero,
    ↓reduceIte, span, join_some, map_some]

theorem Match.named?_of_span (stretch : stop = start + seg.length)
    (here : textFrom m.source start = seg ++ tail) : m.named? name = some (ofList seg) := by
  rw [Match.named?_eq_segment listed span, stretch, segment_of_textFrom here]

end

theorem Match.group_of_span (span : m.spans[slot + 1]? = some (some (start, start + seg.length)))
    (here : textFrom m.source start = seg ++ tail) : m.group (slot + 1) = ofList seg := by
  simp only [Match.group, Match.group?, Match.span?, Nat.add_one_ne_zero, ↓reduceIte, span, join_some,
    map_some, getD_some, segment_of_textFrom here]

theorem Match.text_of_stop (stop : m.stop = m.start + seg.length) (here : textFrom m.source m.start = seg ++ tail) :
    m.text = ofList seg := by
  rw [Match.text, stop, segment_of_textFrom here]

theorem Match.group_sublist (m : Match) (slot : Nat) : (m.group slot).toList.Sublist m.source.toList := by
  rw [Match.group, Match.group?]
  cases m.span? slot with
  | none => exact nil_sublist _
  | some span =>
    rw [map_some, getD_some, toList_ofList, segment_eq_take]
    exact (take_sublist _ _).trans (drop_sublist _ _)

namespace Regex

variable {r : Regex}

theorem searchFrom_step (plain : r.opening = none) (inside : pos ≤ text.size) : r.searchFrom text pos false =
      (r.matchAt text pos false).or (r.searchFrom text (pos + 1) false) := by
  unfold searchFrom
  rw [show text.size + 1 - pos = text.size + 1 - (pos + 1) + 1 by omega]
  simp only [searchPlaces, mayOpen, plain, ↓reduceIte]
  cases r.matchAt text pos false <;> simp

theorem searchFrom_beyond (outside : text.size < pos) : r.searchFrom text pos false = none := by
  unfold searchFrom
  rw [show text.size + 1 - pos = 0 by omega]
  rfl

theorem matchAt_of_exec (least : r.least = 0) (inside : pos ≤ text.size)
    (run : exec text r.node r.options ⟨pos, Array.replicate r.slots none⟩ some = some t) : r.matchAt text pos false =
      some { source := text, start := pos, stop := t.pos, spans := t.spans, names := r.names } := by
  have bound : ¬text.size < pos := Nat.not_lt_of_le inside
  simp only [matchAt, least, Nat.add_zero, bound, ↓reduceIte, Bool.false_and, Bool.false_eq_true]
  exact congrArg (Option.map _) run

theorem searchFrom_skip (plain : r.opening = none) (fails : ∀ i < n, r.matchAt text (pos + i) false = none) :
    r.searchFrom text pos false = r.searchFrom text (pos + n) false := by
  induction n generalizing pos with
  | zero => rfl
  | succ n ih =>
    have later : r.searchFrom text (pos + 1) false = r.searchFrom text (pos + (n + 1)) false := by
      rw [show pos + (n + 1) = pos + 1 + n by omega]
      apply ih
      intro i inside
      have := fails (i + 1) (by omega)
      rwa [show pos + (i + 1) = pos + 1 + i by omega] at this
    by_cases inside : pos ≤ text.size
    · rw [searchFrom_step plain inside, ← later, show r.matchAt text pos false = none from fails 0 (by omega),
        none_or]
    · rw [searchFrom_beyond (by omega), searchFrom_beyond (by omega)]

theorem pos_le_of_matchAt (found : r.matchAt text pos nonempty = some m) : pos ≤ text.size := by
  unfold matchAt at found
  split at found
  · simp at found
  · omega

section

variable (plain : r.opening = none)
include plain

theorem searchFrom_of_matchAt (found : r.matchAt text pos false = some m) :
    r.searchFrom text pos false = some m := by
  rw [searchFrom_step plain (pos_le_of_matchAt found), found, some_or]

theorem searchFrom_upTo {P : Match → Prop}
    (each : ∀ i ≤ n, ∀ m, r.matchAt text (pos + i) false = some m → P m)
    (found : r.matchAt text (pos + n) false = some m) : ∃ m, r.searchFrom text pos false = some m ∧ P m := by
  induction n generalizing pos with
  | zero => exact ⟨m, searchFrom_of_matchAt plain found, each 0 (Nat.le_refl 0) m found⟩
  | succ n ih =>
    have inside := pos_le_of_matchAt found
    cases here : r.matchAt text pos false with
    | some first => exact ⟨first, searchFrom_of_matchAt plain here, each 0 (Nat.zero_le _) first here⟩
    | none =>
      rw [searchFrom_step plain (by omega), here, none_or]
      apply ih
      · intro i bound m there
        exact each (i + 1) (by omega) m (by rwa [show pos + (i + 1) = pos + 1 + i by omega])
      · rwa [show pos + 1 + n = pos + (n + 1) by omega]

/-- A text with a match has a first one, and that is as every match up to the known one is. -/
theorem search?_of_matchAt {P : Match → Prop} {s : String}
    (each : ∀ i ≤ pos, ∀ m, r.matchAt s.toList.toArray i false = some m → P m)
    (found : r.matchAt s.toList.toArray pos false = some m) : ∃ m, r.search? s = some m ∧ P m := by
  refine searchFrom_upTo plain (n := pos) ?_ (by rwa [Nat.zero_add])
  intro i before
  rw [Nat.zero_add]
  exact each i before

theorem search?_eq_none {s : String} (fails : ∀ pos, r.matchAt s.toList.toArray pos false = none) :
    r.search? s = none := by
  rw [search?, searchFrom_skip plain (n := s.toList.toArray.size + 1) fun i _ => fails (0 + i)]
  exact searchFrom_beyond (by omega)

theorem matchesFrom_eq_nil (fails : ∀ i ≤ text.size - pos, r.matchAt text (pos + i) false = none) :
    r.matchesFrom text fuel pos false = [] := by
  have none : r.searchFrom text pos false = none := by
    rw [searchFrom_skip plain (n := text.size - pos + 1) fun i inside => fails i (by omega)]
    exact searchFrom_beyond (by omega)
  cases fuel with
  | zero => rfl
  | succ fuel => simp [matchesFrom, none]

theorem matchesFrom_skip (fails : ∀ i < n, r.matchAt text (pos + i) false = none) :
    r.matchesFrom text fuel pos false = r.matchesFrom text fuel (pos + n) false := by
  cases fuel with
  | zero => rfl
  | succ fuel => simp only [matchesFrom, searchFrom_skip plain fails]

end

theorem matchesFrom_of_searchFrom (found : r.searchFrom text pos false = some m) (moves : m.start < m.stop) :
    r.matchesFrom text (fuel + 1) pos false = m :: r.matchesFrom text fuel m.stop false := by
  have moved : (m.stop == m.start) = false := by
    rw [beq_eq_false_iff_ne]
    omega
  simp only [matchesFrom, found, moved]

theorem matchAt_start (found : r.matchAt text pos nonempty = some m) : m.start = pos := by
  obtain ⟨t, -, rfl⟩ := matchAt_reaches found
  rfl

theorem matchesFrom_of_matchAt (plain : r.opening = none)
    (found : r.matchAt text pos false = some m) (moves : pos < m.stop) :
    r.matchesFrom text (fuel + 1) pos false = m :: r.matchesFrom text fuel m.stop false := by
  apply matchesFrom_of_searchFrom (searchFrom_of_matchAt plain found)
  rwa [matchAt_start found]

/-- The matches of a pattern that takes something wherever it matches, from place to place. -/
theorem matchesFrom_rec {motive : Nat → List Match → Prop} (plain : r.opening = none)
    (moves : ∀ pos m, r.matchAt text pos false = some m → pos < m.stop)
    (beyond : ∀ pos, text.size < pos → motive pos [])
    (skip : ∀ pos ms, r.matchAt text pos false = none → motive (pos + 1) ms → motive pos ms)
    (take : ∀ pos m ms, r.matchAt text pos false = some m → motive m.stop ms → motive pos (m :: ms))
    (enough : text.size + 1 - pos ≤ fuel) : motive pos (r.matchesFrom text fuel pos false) := by
  induction left : text.size + 1 - pos using Nat.strongRecOn generalizing pos fuel with
  | ind left ih =>
    by_cases outside : text.size < pos
    · rw [matchesFrom_eq_nil plain fun i _ => eq_none_iff_forall_not_mem.mpr fun m found => ?_]
      · exact beyond pos outside
      · exact absurd (pos_le_of_matchAt found) (by omega)
    · cases here : r.matchAt text pos false with
      | none =>
        rw [matchesFrom_skip plain (n := 1) fun i small => by rwa [Nat.lt_one_iff.mp small]]
        exact skip pos _ here (ih _ (by omega) (by omega) rfl)
      | some m =>
        have moved := moves pos m here
        obtain ⟨fuel, rfl⟩ : ∃ n, fuel = n + 1 := ⟨fuel - 1, by omega⟩
        rw [matchesFrom_of_matchAt plain here moved]
        exact take pos m _ here (ih _ (by omega) (by omega) rfl)

theorem searchPlaces_some (found : r.searchPlaces text fuel pos nonempty = some m) :
    ∃ place, pos ≤ place ∧ ∃ b, r.matchAt text place b = some m := by
  induction fuel generalizing pos nonempty with
  | zero => simp [searchPlaces] at found
  | succ fuel ih =>
    unfold searchPlaces at found
    split at found
    · next m' here =>
      obtain rfl := some.inj found
      split at here
      · exact ⟨pos, Nat.le_refl pos, nonempty, here⟩
      · simp at here
    · obtain ⟨place, later, there⟩ := ih found
      exact ⟨place, by omega, there⟩

theorem exists_matchAt_of_search {s : String} (found : r.search? s = some m) :
    ∃ place b, r.matchAt s.toList.toArray place b = some m := by
  obtain ⟨place, -, b, there⟩ := searchPlaces_some found
  exact ⟨place, b, there⟩

theorem exists_matchAt_of_mem (member : m ∈ r.matchesFrom text fuel pos nonempty) :
    ∃ place b, r.matchAt text place b = some m := by
  induction fuel generalizing pos nonempty with
  | zero => simp [matchesFrom] at member
  | succ fuel ih =>
    unfold matchesFrom at member
    split at member
    · simp at member
    · next first found =>
      rcases mem_cons.mp member with rfl | later
      · obtain ⟨place, -, b, there⟩ := searchPlaces_some found
        exact ⟨place, b, there⟩
      · exact ih later

theorem le_start_of_head (first : (r.matchesFrom text fuel pos nonempty).head? = some m) : pos ≤ m.start := by
  cases fuel with
  | zero => simp [matchesFrom] at first
  | succ fuel =>
    unfold matchesFrom at first
    split at first
    · simp at first
    · next found =>
      obtain rfl := some.inj first
      obtain ⟨place, later, b, there⟩ := searchPlaces_some found
      rwa [matchAt_start there]

theorem stop_gt_of_matchAt (consumes : 0 < (r.node.width []).1) (found : r.matchAt text pos nonempty = some m) :
    pos < m.stop := by
  obtain ⟨t, reached, rfl⟩ := matchAt_reaches found
  exact Nat.lt_of_lt_of_le (Nat.lt_add_of_pos_right consumes) reached.width_le

/-- The matches of a pattern that always takes something begin one behind the other. -/
theorem pairwise_matchesFrom (consumes : 0 < (r.node.width []).1) (text : Array Char) (fuel pos : Nat)
    (nonempty : Bool) : (r.matchesFrom text fuel pos nonempty).Pairwise (·.start < ·.start) := by
  rw [← isChain_iff_pairwise]
  induction fuel generalizing pos nonempty with
  | zero => exact IsChain.nil
  | succ fuel ih =>
    unfold matchesFrom
    split
    · exact IsChain.nil
    · next found =>
      obtain ⟨place, -, b, there⟩ := searchPlaces_some found
      obtain rfl := matchAt_start there
      refine isChain_cons.mpr ⟨fun next first => ?_, ih _ _⟩
      exact Nat.lt_of_lt_of_le (stop_gt_of_matchAt consumes there) (le_start_of_head first)

/-- If every match takes a character, a text has no more matches than that character. -/
theorem length_matchesFrom_le
    (takes : ∀ place b m, r.matchAt text place b = some m → c ∈ segment text m.start m.stop) (fuel pos : Nat)
    (nonempty : Bool) : (r.matchesFrom text fuel pos nonempty).length ≤ (textFrom text pos).count c := by
  induction fuel generalizing pos nonempty with
  | zero => exact Nat.zero_le _
  | succ fuel ih =>
    unfold matchesFrom
    split
    · exact Nat.zero_le _
    · next m found =>
      obtain ⟨place, later, b, there⟩ := searchPlaces_some found
      obtain rfl := matchAt_start there
      have taken := takes _ _ _ there
      have split : textFrom text m.start = segment text m.start m.stop ++ textFrom text m.stop := by
        have forward : m.start ≤ m.stop := by
          by_contra backward
          rw [segment_eq_take, show m.stop - m.start = 0 by omega] at taken
          simp at taken
        exact textFrom_split forward
      have front : (textFrom text m.start).count c ≤ (textFrom text pos).count c := by
        obtain ⟨n, moved⟩ := Nat.exists_eq_add_of_le later
        rw [moved, textFrom_add]
        exact (drop_sublist _ _).count_le c
      have rest := ih m.stop (m.stop == m.start)
      have positive := count_pos_iff.mpr taken
      rw [split, count_append] at front
      rw [length_cons]
      omega

theorem matches_ne_nil (plain : r.opening = none) {s : String}
    (found : r.matchAt s.toList.toArray pos false = some m) : r.matches_ s ≠ [] := by
  intro none
  have silent : ∀ i < pos + 1, r.matchAt s.toList.toArray (0 + i) false = .none := by
    intro i
    induction i using Nat.strongRecOn with
    | ind i earlier =>
      intro inside
      cases here : r.matchAt s.toList.toArray (0 + i) false with
      | none => rfl
      | some first =>
        rw [matches_, matchesFrom_skip plain fun j before => earlier j before (by omega)] at none
        rw [matchesFrom, searchFrom_of_matchAt plain here] at none
        exact absurd none (cons_ne_nil _ _)
  rw [← Nat.zero_add pos, silent pos (by omega)] at found
  simp at found

theorem segment_split {middle : Nat} (first : start ≤ middle) (second : middle ≤ stop) :
    segment text start stop = segment text start middle ++ segment text middle stop := by
  obtain ⟨a, rfl⟩ := Nat.exists_eq_add_of_le first
  obtain ⟨b, rfl⟩ := Nat.exists_eq_add_of_le second
  rw [segment_eq_take, segment_eq_take, segment_eq_take, textFrom_add, Nat.add_sub_cancel_left,
    Nat.add_sub_cancel_left, ← take_add, show start + a + b - start = a + b by omega]

theorem splice_of_late {f : Match → List Char} {ms : List Match} (before : pos ≤ n)
    (late : ∀ m, ms.head? = some m → n ≤ m.start) : splice text f pos ms = segment text pos n ++ splice text f n ms := by
  cases ms with
  | nil =>
    rcases Nat.le_total n text.size with inside | outside
    · simp only [splice, segment_split before inside]
    · have beyond : segment text n text.size = [] := by simp [segment_eq_take, Nat.sub_eq_zero_of_le outside]
      have whole : segment text pos n = segment text pos text.size := by
        rw [segment_eq_take, segment_eq_take, take_of_length_le, take_of_length_le] <;>
          rw [textFrom_length] <;> omega
      simp only [splice, beyond, whole, append_nil]
  | cons m ms => simp only [splice, segment_split before (late m rfl), List.append_assoc]

theorem mem_splice {f : Match → List Char} {ms : List Match}
    (member : c ∈ splice text f pos ms) : c ∈ text.toList ∨ ∃ m ∈ ms, c ∈ f m := by
  induction ms generalizing pos with
  | nil => exact Or.inl (mem_of_mem_segment member)
  | cons m ms ih =>
    simp only [splice, mem_append] at member
    rcases member with (before | new) | later
    · exact Or.inl (mem_of_mem_segment before)
    · exact Or.inr ⟨m, mem_cons_self, new⟩
    · rcases ih later with inside | ⟨m', inside, new⟩
      · exact Or.inl inside
      · exact Or.inr ⟨m', mem_cons_of_mem m inside, new⟩

theorem replace_eq_self (plain : r.opening = none) (new : String) {s : String}
    (fails : ∀ pos, r.matchAt s.toList.toArray pos false = none) : r.replace new s = s := by
  have none : r.matches_ s = [] := matchesFrom_eq_nil plain fun i _ => fails (0 + i)
  simp [replace, replaceBy, none, splice, segment]

theorem replace_keeps_front (plain : r.opening = none) (new : String) {rest : List Char}
    (fails : ∀ i < cs.length, r.matchAt (cs ++ rest).toArray i false = none) :
    ∃ tail, r.replace new (ofList (cs ++ rest)) = ofList (cs ++ tail) ∧
      ∀ c ∈ tail, c ∈ cs ++ rest ∨ c ∈ new.toList := by
  have skipped : r.matches_ (ofList (cs ++ rest)) =
      r.matchesFrom (cs ++ rest).toArray (2 * (cs ++ rest).toArray.size + 2) cs.length false := by
    rw [matches_, toList_ofList, ← Nat.zero_add cs.length]
    refine matchesFrom_skip plain fun i inside => ?_
    rw [Nat.zero_add]
    exact fails i inside
  have front : segment (cs ++ rest).toArray 0 cs.length = cs := by
    simp [segment]
  refine ⟨splice (cs ++ rest).toArray (fun _ => new.toList) cs.length
    (r.matches_ (ofList (cs ++ rest))), ?_, fun c member => ?_⟩
  · simp only [replace, replaceBy, toList_ofList]
    rw [splice_of_late (Nat.zero_le cs.length), front]
    rw [skipped]
    exact fun m => le_start_of_head
  · rcases mem_splice member with inside | ⟨m, -, inside⟩
    · exact Or.inl inside
    · exact Or.inr inside

theorem splice_own (fuel pos : Nat) (b : Bool) :
    splice text (fun m => segment text m.start m.stop) pos (r.matchesFrom text fuel pos b) = textFrom text pos := by
  have rest (pos : Nat) : segment text pos text.size = textFrom text pos := by
    rw [segment_eq_take, take_of_length_le (Nat.le_of_eq (textFrom_length text pos))]
  induction fuel generalizing pos b with
  | zero => exact rest pos
  | succ fuel ih =>
    unfold matchesFrom
    split
    · exact rest pos
    · next m found =>
      obtain ⟨place, later, b', there⟩ := searchPlaces_some found
      obtain ⟨t, reached, rfl⟩ := matchAt_reaches there
      simp only [splice]
      rw [ih, List.append_assoc, ← textFrom_split reached.pos_le, ← textFrom_split later]

/-- How many characters of a kind a replacement leaves, if every match takes equally many of them and
equally many come in its place. -/
theorem countP_replaceBy (p : Char → Bool) {f : Match → String} {s : String} (old new : Nat)
    (each : ∀ pos b m, r.matchAt s.toList.toArray pos b = some m →
      (segment s.toList.toArray m.start m.stop).countP p = old ∧ (f m).toList.countP p = new) :
    (r.replaceBy f s).toList.countP p + old * (r.matches_ s).length =
      s.toList.countP p + new * (r.matches_ s).length := by
  have counted (ms : List Match) (each : ∀ m ∈ ms,
      (segment s.toList.toArray m.start m.stop).countP p = old ∧ (f m).toList.countP p = new) (pos : Nat) :
      (splice s.toList.toArray (fun m => (f m).toList) pos ms).countP p + old * ms.length =
        (splice s.toList.toArray (fun m => segment s.toList.toArray m.start m.stop) pos ms).countP p +
          new * ms.length := by
    induction ms generalizing pos with
    | nil => rfl
    | cons m ms ih =>
      have here := each m mem_cons_self
      have later := ih (fun m' later => each m' (mem_cons_of_mem m later)) m.stop
      simp only [splice, countP_append, length_cons, Nat.mul_succ, here]
      omega
  have total := counted (r.matches_ s) (fun m member => ?_) 0
  · rw [matches_, splice_own, textFrom_zero, ← matches_] at total
    rw [← total, replaceBy, toList_ofList]
  · obtain ⟨place, b, there⟩ := exists_matchAt_of_mem member
    exact each _ _ _ there

end Regex

end VhdlWorkbench.Pattern

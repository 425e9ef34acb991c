import VhdlWorkbench.Editor.Buffer
import VhdlWorkbench.Proofs.Scan

/-!
Regions of a buffer whose text is known around them.
-/

namespace VhdlWorkbench.Editor.Buffer

open Pattern List Text

variable {b : Buffer} {front cs back : List Char}

theorem clamp_eq {p : Nat} (inside : p ≤ b.size) : b.clamp p = p := by
  simp only [clamp, Int.toNat_natCast]
  omega

theorem textOf_between (whole : b.text = (front ++ (cs ++ back)).toArray) :
    b.textOf ⟨front.length, (front.length + cs.length : Nat)⟩ = String.ofList cs := by
  have first : (Region.mk front.length (front.length + cs.length : Nat)).first.toNat = front.length := by
    simp only [Region.first]
    omega
  have last : (Region.mk front.length (front.length + cs.length : Nat)).last.toNat =
      front.length + cs.length := by
    simp only [Region.last]
    omega
  rw [textOf, first, last, whole]
  simp

theorem extract_front (xs ys : List Char) : ((xs ++ ys).toArray.extract 0 xs.length).toList = xs := by
  simp

theorem extract_back (xs ys : List Char) :
    ((xs ++ ys).toArray.extract xs.length (xs ++ ys).toArray.size).toList = ys := by
  simp

theorem word_at {cs' : List Char} (whole : b.text = (front ++ ((cs ++ cs') ++ back)).toArray)
    (wordy : ∀ c ∈ cs ++ cs', isWord c = true)
    (opens : ∀ c, front.getLast? = some c → isWord c = false)
    (closes : Stops isWord back) :
    b.word (.point (front.length + cs.length : Nat)) =
      ⟨front.length, (front.length + (cs ++ cs').length : Nat)⟩ := by
  have place : front.length + cs.length = (front ++ cs).length := length_append.symm
  have parts : b.text = ((front ++ cs) ++ (cs' ++ back)).toArray := by
    rw [whole]
    simp
  have inside : (front ++ cs).length ≤ b.size := by
    simp [size, parts]
  have left : ((front ++ cs).reverse.takeWhile isWord).length = cs.length := by
    rw [reverse_append, takeWhile_append_of_stop, length_reverse]
    · simpa using fun c member => wordy c (mem_append_left _ member)
    · simpa using opens
  have right : ((cs' ++ back).takeWhile isWord).length = cs'.length := by
    rw [takeWhile_append_of_stop _ closes]
    exact fun c member => wordy c (mem_append_right _ member)
  rw [place]
  simp only [word, Region.point, Region.first, Region.last, Int.min_self, Int.max_self, clamp_eq inside]
  rw [size, parts, extract_front, extract_back, left, right]
  simp only [length_append, Region.mk.injEq]
  omega

theorem textFrom_front (whole : b.text = (front ++ (cs ++ back)).toArray) :
    textFrom b.text front.length = cs ++ back := by
  simp [textFrom, whole]

theorem lineStart_at (whole : b.text = (front ++ (cs ++ back)).toArray)
    (opens : ∀ c, front.getLast? = some c → c = '\n') (single : '\n' ∉ cs) {n : Nat} (inside : n ≤ cs.length) :
    b.lineStart (front.length + n) = front.length := by
  induction n with
  | zero =>
    rcases eq_nil_or_concat front with rfl | ⟨lines, c, rfl⟩
    · rfl
    · obtain rfl := opens c (by simp)
      have feed : b.text[lines.length]? = some '\n' := by simp [whole]
      rw [length_concat, Nat.add_zero, lineStart, feed]
      rfl
  | succ n ih =>
    have there : b.text[front.length + n]? = some cs[n] := by
      rw [getElem?_of_textFrom (textFrom_front whole), getElem?_append_left (by omega),
        getElem?_eq_getElem]
    have other : cs[n] ≠ '\n' := fun feed => single (feed ▸ getElem_mem _)
    rw [← Nat.add_assoc, lineStart, there]
    simpa [other] using ih (by omega)

theorem lineEnd_at (whole : b.text = (front ++ (cs ++ '\n' :: back)).toArray) (single : '\n' ∉ cs)
    {n : Nat} (inside : n ≤ cs.length) : b.lineEnd (front.length + n) = front.length + cs.length := by
  have parts : b.text = ((front ++ cs.take n) ++ (cs.drop n ++ '\n' :: back)).toArray := by
    rw [whole, append_assoc, ← append_assoc (cs.take n), take_append_drop]
  have place : front.length + n = (front ++ cs.take n).length := by
    simp [Nat.min_eq_left inside]
  have rest : ((cs.drop n ++ '\n' :: back).takeWhile (· != '\n')).length = cs.length - n := by
    rw [takeWhile_append_of_stop, length_drop]
    · intro c member
      rw [bne_iff_ne]
      rintro rfl
      exact single (mem_of_mem_drop member)
    · rintro c ⟨⟩
      rfl
  rw [place, lineEnd, size, parts, extract_back, rest, ← place]
  omega

theorem line_at (whole : b.text = (front ++ (cs ++ '\n' :: back)).toArray)
    (opens : ∀ c, front.getLast? = some c → c = '\n') (single : '\n' ∉ cs) {n m : Nat} (order : n ≤ m)
    (inside : m ≤ cs.length) :
    b.line ⟨(front.length + n : Nat), (front.length + m : Nat)⟩ =
      ⟨front.length, (front.length + cs.length : Nat)⟩ := by
  have size : b.size = front.length + (cs.length + (back.length + 1)) := by
    simp [size, whole]
  have first : (Region.mk (front.length + n : Nat) (front.length + m : Nat)).first =
      (front.length + n : Nat) := by
    simp only [Region.first]
    omega
  have last : (Region.mk (front.length + n : Nat) (front.length + m : Nat)).last =
      (front.length + m : Nat) := by
    simp only [Region.last]
    omega
  rw [line, first, last, clamp_eq (by omega), clamp_eq (by omega),
    lineStart_at whole opens single (by omega), lineEnd_at whole single inside]

end VhdlWorkbench.Editor.Buffer

import Mathlib.Algebra.Ring.Nat
import VhdlWorkbench.Colour.Calls
import VhdlWorkbench.Proofs.Words

/-!
The texts of colours, and reading them back.
-/

namespace VhdlWorkbench.Colour

open Pattern Pattern.Node Design List String Option Text

/-- A channel value: an integer from 0 to 255. -/
def IsByte (n : Int) : Prop :=
  0 ≤ n ∧ n ≤ 255

instance (n : Int) : Decidable (IsByte n) :=
  inferInstanceAs (Decidable (0 ≤ n ∧ n ≤ 255))

/-- Every channel is from 0 to 255. -/
structure Rgba.InRange (c : Rgba) : Prop where
  red : IsByte c.r
  green : IsByte c.g
  blue : IsByte c.b
  alpha : IsByte c.a

theorem hexValue?_le {c : Char} {n : Nat} (found : hexValue? c = some n) : n ≤ 15 := by
  simp only [hexValue?, digitValue?] at found
  split at found
  · next lower => simp only [Bool.and_eq_true, decide_eq_true_eq] at lower; cases found; omega
  split at found
  · next upper => simp only [Bool.and_eq_true, decide_eq_true_eq] at upper; cases found; omega
  split at found
  · next digit => simp only [Bool.and_eq_true, decide_eq_true_eq] at digit; cases found; omega
  split at found
  · simp at found
  -- a digit of another script is at most nine behind its zero
  obtain ⟨first, member, rfl⟩ := map_eq_some_iff.mp found
  have near := find?_some member
  simp only [Bool.and_eq_true, decide_eq_true_eq] at near
  omega

theorem hexNumeral_lt (digits : List Char) : hexNumeral digits < 16 ^ digits.length := by
  suffices bound : ∀ n, digits.foldl (fun n c => n * 16 + (hexValue? c).getD 0) n <
      (n + 1) * 16 ^ digits.length by simpa [hexNumeral] using bound 0
  induction digits with
  | nil => simp
  | cons c digits ih =>
    intro n
    have digit : (hexValue? c).getD 0 ≤ 15 := by
      cases found : hexValue? c with
      | none => simp
      | some v => exact hexValue?_le found
    rw [foldl_cons, length_cons, Nat.pow_succ]
    calc _ < (n * 16 + (hexValue? c).getD 0 + 1) * 16 ^ digits.length := ih _
      _ ≤ (n + 1) * 16 * 16 ^ digits.length := Nat.mul_le_mul_right _ (by omega)
      _ = _ := by rw [Nat.mul_assoc, Nat.mul_comm 16]

theorem isByte_hexNumeral {digits : List Char} (short : digits.length ≤ 2) :
    IsByte (hexNumeral digits) := by
  have bound := hexNumeral_lt digits
  have most : 16 ^ digits.length ≤ 16 ^ 2 := Nat.pow_le_pow_right (by decide) short
  exact ⟨by omega, by omega⟩

theorem isByte_byteAt (cs : List Char) (offset : Nat) : IsByte (byteAt cs offset) :=
  isByte_hexNumeral (length_take_le 2 _)

theorem isByte_nibbleAt (cs : List Char) (offset : Nat) : IsByte (nibbleAt cs offset) := by
  have short := length_take_le 1 (cs.drop offset)
  apply isByte_hexNumeral
  rw [List.length_append]
  omega

theorem colourText_eq : colourText =
    { node := start ++ lit "#" ++ .group (.alt
        (.capture 1 none (.run hexChar 6 (some 6) .greedy) ++
          Node.optional (.capture 2 none (.run hexChar 2 (some 2) .greedy)))
        (.capture 3 none (.run hexChar 3 (some 3) .greedy)))
      slots := 4 } := rfl

theorem length_alpha {s alpha : String} {m : Match} (found : colourText.matchStart? s = some m)
    (given : m.group? 2 = some alpha) : alpha.toList.length ≤ 2 := by
  rw [colourText_eq] at found
  obtain ⟨t, ⟨t₁, ⟨t₀, ⟨-, rfl⟩, mark⟩, forms⟩, rfl⟩ := Regex.matchAt_reaches found
  obtain ⟨-, rfl⟩ := reaches_lit mark
  simp only [Match.group?, Match.span?, map_eq_some_iff] at given
  obtain ⟨⟨start, stop⟩, span, rfl⟩ := given
  rcases forms with ⟨t₂, ⟨t₃, ⟨n, -, -, -, rfl⟩, rfl⟩, more⟩ | ⟨t₂, ⟨n, -, -, -, rfl⟩, rfl⟩
  · rcases reaches_optional more with rfl | ⟨t₃, digits, rfl⟩
    · simp at span
    · obtain ⟨n, -, most, -, rfl⟩ := digits
      simp at span
      obtain ⟨rfl, rfl⟩ := span
      have := most 2 rfl
      rw [toList_ofList, segment_eq_take, length_take]
      omega
  · simp at span

theorem Rgba.inRange_of_parse {s : String} {c : Rgba} (read : Rgba.parse s = .ok c) : c.InRange := by
  unfold Rgba.parse at read
  cases found : colourText.matchStart? s with
  | none => simp [found] at read
  | some m =>
    simp only [found] at read
    split at read
    · obtain rfl := Except.ok.inj read
      refine ⟨isByte_byteAt _ _, isByte_byteAt _ _, isByte_byteAt _ _, ?_⟩
      cases given : m.group? 2 with
      | none => exact (by decide : IsByte 255)
      | some alpha => exact isByte_hexNumeral (length_alpha found given)
    · obtain rfl := Except.ok.inj read
      exact ⟨isByte_nibbleAt _ _, isByte_nibbleAt _ _, isByte_nibbleAt _ _, (by decide : IsByte 255)⟩

def hexDigits : List Char :=
  "0123456789ABCDEF".toList

theorem accepts_hexDigit : ∀ d ∈ hexDigits, hexChar.accepts {} d = true := by
  decide

theorem channelText_ofNat : ∀ n < 256, (channelText (Int.ofNat n)).toList.length = 2 ∧
    (∀ d ∈ (channelText (Int.ofNat n)).toList, d ∈ hexDigits) ∧
      hexNumeral (channelText (Int.ofNat n)).toList = n := by
  decide +kernel

theorem channelText_isByte {n : Int} (byte : IsByte n) : ∃ digits : List Char,
    channelText n = ofList digits ∧ digits.length = 2 ∧ (∀ d ∈ digits, d ∈ hexDigits) ∧
      (hexNumeral digits : Int) = n := by
  obtain ⟨low, high⟩ := byte
  obtain ⟨k, rfl⟩ := Int.eq_ofNat_of_zero_le low
  obtain ⟨size, hex, value⟩ := channelText_ofNat k (by omega)
  exact ⟨_, ofList_toList.symm, size, hex, congrArg Int.ofNat value⟩

/-- Alpha is read from two digits behind the first six; fewer are left. -/
theorem matchStart?_digits {rgb tail : List Char} (six : rgb.length = 6) (short : tail.length ≤ 2)
    (accepted : ∀ d ∈ rgb ++ tail, hexChar.accepts {} d = true) : ∃ m,
      colourText.matchStart? (ofList ('#' :: (rgb ++ tail))) = some m ∧ (m.group? 1).isSome = true ∧
        m.group? 2 = if tail.length = 2 then some (ofList tail) else none := by
  obtain ⟨text, defined⟩ : ∃ text, text = ('#' :: (rgb ++ tail)).toArray := ⟨_, rfl⟩
  have whole : textFrom text 0 = "#".toList ++ (rgb ++ tail) := by rw [defined, textFrom_zero]; rfl
  have colours : textFrom text 1 = rgb ++ tail := textFrom_append whole
  have last : textFrom text 7 = tail ++ [] := by
    rw [append_nil, ← textFrom_append colours, six]
  have run {r : Thread} (rest : exec text (optional (.capture 2 none (.run hexChar 2 (some 2) .greedy))) {}
      ⟨7, #[none, some (1, 7), none, none]⟩ some = some r) :
      exec text colourText.node colourText.options ⟨0, Array.replicate colourText.slots none⟩ some = some r := by
    rw [colourText_eq, exec_seq, exec_seq, start, exec_anchor_of_holds rfl]
    refine exec_lit_of_cased rfl whole ?_
    rw [exec, exec_alt, exec_seq, exec_capture, ← six,
      exec_run_exactly colours fun d member => accepted d (mem_append_left _ member), six]
    exact or_eq_some_iff.mpr (Or.inl rest)
  have found {r : Thread} (success : exec text colourText.node colourText.options
      ⟨0, Array.replicate colourText.slots none⟩ some = some r) :
      colourText.matchStart? (ofList ('#' :: (rgb ++ tail))) =
        some { source := text, start := 0, stop := r.pos, spans := r.spans, names := [] } := by
    rw [Regex.matchStart?, toList_ofList, ← defined]
    exact Regex.matchAt_of_exec rfl (Nat.zero_le _) success
  by_cases two : tail.length = 2
  · have taken := run (exec_optional_of_some (r := ⟨9, #[none, some (1, 7), some (7, 9), none]⟩) (by
      rw [exec_capture, ← two, exec_run_exactly last fun d member => accepted d (mem_append_right _ member), two]
      rfl))
    refine ⟨_, found taken, rfl, ?_⟩
    have stretch := segment_of_textFrom last
    rw [two] at stretch
    rw [if_pos two]
    exact congrArg (some ∘ ofList) stretch
  · have left := run (exec_optional_of_none (r := ⟨7, #[none, some (1, 7), none, none]⟩) (by
      rw [eq_none_iff_forall_not_mem]
      intro r success
      obtain ⟨_, ⟨_, digits, -⟩, -⟩ := exec_reaches _ _ _ _ _ success
      obtain ⟨seg, here, -, least, -, rfl⟩ := reaches_run digits
      have size := congrArg List.length (last.symm.trans here)
      simp only [List.length_append, List.length_nil] at size
      omega) rfl)
    exact ⟨_, found left, rfl, by rw [if_neg two]; rfl⟩

theorem byteAt_pair (front digits back : List Char) (two : digits.length = 2) :
    byteAt (front ++ (digits ++ back)) front.length = hexNumeral digits := by
  simp [byteAt, two]

/-- The pairs of digits behind a hash are the channels; a single digit at the end does not count. -/
theorem Rgba.parse_pairs {r g b tail : List Char} (rSize : r.length = 2) (gSize : g.length = 2) (bSize : b.length = 2)
    (accepted : ∀ d ∈ r ++ g ++ b ++ tail, hexChar.accepts {} d = true) (short : tail.length ≤ 2) :
    Rgba.parse (ofList ('#' :: ((r ++ g ++ b) ++ tail))) =
      .ok { r := hexNumeral r, g := hexNumeral g, b := hexNumeral b,
            a := if tail.length = 2 then hexNumeral tail else 255 } := by
  have size : (r ++ g ++ b).length = 6 := by simp [rSize, gSize, bSize]
  obtain ⟨m, found, digits, alpha⟩ := matchStart?_digits size short accepted
  simp only [Rgba.parse, found, digits, alpha, if_true, toList_ofList]
  have red : byteAt ('#' :: ((r ++ g ++ b) ++ tail)) 1 = hexNumeral r := by
    simpa using byteAt_pair ['#'] r (g ++ b ++ tail) rSize
  have green : byteAt ('#' :: ((r ++ g ++ b) ++ tail)) 3 = hexNumeral g := by
    simpa [rSize] using byteAt_pair ('#' :: r) g (b ++ tail) gSize
  have blue : byteAt ('#' :: ((r ++ g ++ b) ++ tail)) 5 = hexNumeral b := by
    simpa [rSize, gSize] using byteAt_pair ('#' :: (r ++ g)) b tail bSize
  rw [red, green, blue]
  by_cases two : tail.length = 2 <;> simp [two]

/-- The digits of a colour within bounds, and alpha behind them, are read back. -/
theorem Rgba.parse_toRgbText {c : Rgba} (inside : c.InRange) {tail : List Char} (short : tail.length ≤ 2)
    (hex : ∀ d ∈ tail, d ∈ hexDigits) :
    (∃ digits, c.toRgbText ++ ofList tail = ofList ('#' :: digits) ∧ digits.length = 6 + tail.length ∧
        ∀ d ∈ digits, d ∈ hexDigits) ∧
      Rgba.parse (c.toRgbText ++ ofList tail) =
        .ok { c with a := if tail.length = 2 then hexNumeral tail else 255 } := by
  obtain ⟨r, rText, rSize, rHex, rValue⟩ := channelText_isByte inside.red
  obtain ⟨g, gText, gSize, gHex, gValue⟩ := channelText_isByte inside.green
  obtain ⟨b, bText, bSize, bHex, bValue⟩ := channelText_isByte inside.blue
  have text : c.toRgbText ++ ofList tail = ofList ('#' :: ((r ++ g ++ b) ++ tail)) := by
    rw [Rgba.toRgbText, rText, gText, bText, ← toList_inj]
    simp
  have every : ∀ d ∈ (r ++ g ++ b) ++ tail, d ∈ hexDigits := by
    simp only [mem_append]
    rintro d (((red | green) | blue) | alpha)
    exacts [rHex d red, gHex d green, bHex d blue, hex d alpha]
  refine ⟨⟨_, text, by simp only [List.length_append, rSize, gSize, bSize], every⟩, ?_⟩
  rw [text, Rgba.parse_pairs rSize gSize bSize (fun d member => accepts_hexDigit d (every d member)) short,
    rValue, gValue, bValue]

/-- A colour within bounds is written as eight digits, and reading them gives it back. -/
theorem Rgba.parse_toText {c : Rgba} (inside : c.InRange) :
    (∃ digits, c.toText = ofList ('#' :: digits) ∧ digits.length = 8 ∧ ∀ d ∈ digits, d ∈ hexDigits) ∧
      Rgba.parse c.toText = .ok c := by
  obtain ⟨a, aText, aSize, aHex, aValue⟩ := channelText_isByte inside.alpha
  have read := Rgba.parse_toRgbText inside (Nat.le_of_eq aSize) aHex
  rwa [← aText, aSize, if_pos rfl, aValue] at read

end VhdlWorkbench.Colour

import VhdlWorkbench.Proofs.Captures
import VhdlWorkbench.Proofs.ColourText

/-!
Colours of digits behind a hash keep their channels, but for a single digit of alpha.
-/

namespace VhdlWorkbench.Colour

open Pattern List String Option Node

/-- The digits of hexadecimal numbers. -/
def asciiHexDigits : List Char :=
  "0123456789abcdefABCDEF".toList

def digitOf (c : Char) : Int :=
  ((Text.hexValue? c).getD 0 : Nat)

/-- The colour that the digits behind a hash denote: one digit or two for each channel, and alpha last if it is
written at all. -/
def denotedColour : List Char → Rgba
  | [r, g, b] => { r := 17 * digitOf r, g := 17 * digitOf g, b := 17 * digitOf b, a := 255 }
  | [r, g, b, a] => { r := 17 * digitOf r, g := 17 * digitOf g, b := 17 * digitOf b, a := 17 * digitOf a }
  | [r, r', g, g', b, b'] =>
    { r := 16 * digitOf r + digitOf r', g := 16 * digitOf g + digitOf g', b := 16 * digitOf b + digitOf b', a := 255 }
  | [r, r', g, g', b, b', a, a'] =>
    { r := 16 * digitOf r + digitOf r', g := 16 * digitOf g + digitOf g', b := 16 * digitOf b + digitOf b'
      a := 16 * digitOf a + digitOf a' }
  | _ => {}

/-- Groups of digits and the group of three arguments, with their slots and patterns. -/
def contentGroups : List (String × Nat × Node) :=
  let digits (n : Nat) : Node := .run hexChar n (some n) .greedy
  [("hexa_content", 2, digits 8), ("hex_content", 4, digits 6), ("hexa_compressed_content", 6, digits 4),
   ("hex_compressed_content", 8, digits 3),
   ("rgb_content", 10, .choice [leading 2 numeral ++ numeral, leading 2 percentage ++ percentage])]

theorem captures_nameForm (slot : Nat) : (nameForm slot).captures = [slot] := by
  have captureless (form : String × String → Node) (free : ∀ name, (form name).captures = [])
      (names : List (String × String)) : (choice (names.map form)).captures = [] := by
    induction names with
    | nil => rfl
    | cons name names ih =>
      cases names with
      | nil => exact free name
      | cons next names =>
        show (form name).captures ++ _ = []
        rw [free, nil_append]
        exact ih
  have around (body : Node) : (edge ++ .capture slot (some "name") body ++ edge ++
      .look none true (lit "(")).captures = slot :: body.captures := by
    show (([] ++ slot :: body.captures) ++ []) ++ (lit "(").captures = _
    rw [captures_lit, append_nil, append_nil, nil_append]
  rw [nameForm, around, captureless _ fun name => captures_lit name.1]

theorem contentGroups_bodies : ∀ g ∈ contentGroups, colourForm.names.lookup g.1 = some g.2.1 ∧ 0 < g.2.1 ∧
    colourForm.node.bodies g.2.1 = [g.2.2] := by
  have forms : ∀ g ∈ contentGroups, colourForm.names.lookup g.1 = some g.2.1 ∧ 0 < g.2.1 ∧
      g.2.1 ≠ ((Node.choice (rgbForms ++ hslForms ++ [variableForm, mixtureForm])).number 1).2 ∧
      ((Node.choice (rgbForms ++ hslForms ++ [variableForm, mixtureForm])).number 1).1.bodies g.2.1 = [g.2.2] := by
    rw [colourForm]
    decide
  intro g listed
  obtain ⟨slot, positive, other, bodies⟩ := forms g listed
  refine ⟨slot, positive, ?_⟩
  have named := Node.bodies_of_free (p := nameForm _) (by rw [captures_nameForm]; exact mem_singleton.not.mpr other)
  rw [colourForm, formsOrName, Node.bodies, Node.bodies, named, append_nil, bodies]

/-- What a group holds was passed by its pattern. -/
theorem content_of_named {text part : String} {m : Match} {g : String × Nat × Node} (listed : g ∈ contentGroups)
    (found : colourForm.matchStart? text = some m) (held : m.named? g.1 = some part) : ∃ o u u',
      Reaches text.toList.toArray g.2.2 o u u' ∧ part = ofList (segment text.toList.toArray u.pos u'.pos) := by
  obtain ⟨slot, positive, bodies⟩ := contentGroups_bodies g listed
  obtain ⟨body, member, passed⟩ := Regex.named_of_matchAt found slot positive held
  rw [bodies, mem_singleton] at member
  exact member ▸ passed

/-- The form of a text is that of the group which its match has found. -/
theorem group_of_form {text : String} {form : Form} (read : Form.ofText? text = some form) :
    ∃ m, colourForm.matchStart? text = some m ∧
      ∃ g ∈ formGroups, ∃ part, m.named? g.1 = some part ∧ g.2 part = form := by
  obtain ⟨m, found, read⟩ := bind_eq_some_iff.mp read
  obtain ⟨g, listed, part⟩ := exists_of_findSome?_eq_some read
  exact ⟨m, found, g, listed, map_eq_some_iff.mp part⟩

/-- The digits that a match has found are as many as one of the forms has. -/
theorem lengths_of_form {text digits : String} :
    (Form.ofText? text = some (.short digits) → digits.toList.length = 3 ∨ digits.toList.length = 4) ∧
      (Form.ofText? text = some (.long digits) → digits.toList.length = 6 ∨ digits.toList.length = 8) := by
  have size {m : Match} (found : colourForm.matchStart? text = some m) (name : String) (slot n : Nat)
      (listed : (name, slot, .run hexChar n (some n) .greedy) ∈ contentGroups) (held : m.named? name = some digits) :
      digits.toList.length = n := by
    obtain ⟨o, u, u', passed, rfl⟩ := content_of_named listed found held
    obtain ⟨seg, here, -, least, most, rfl⟩ := reaches_run passed
    rw [toList_ofList, segment_of_textFrom here]
    exact Nat.le_antisymm (most _ rfl) least
  refine ⟨fun read => ?_, fun read => ?_⟩ <;> obtain ⟨m, found, g, listed, part, held, form⟩ := group_of_form read <;>
    simp only [formGroups, mem_cons, not_mem_nil, or_false] at listed <;>
    rcases listed with rfl | rfl | rfl | rfl | rfl | rfl | rfl | rfl | rfl | rfl | rfl <;> cases form
  · exact Or.inl (size found _ 8 3 (by decide) held)
  · exact Or.inr (size found _ 6 4 (by decide) held)
  · exact Or.inl (size found _ 4 6 (by decide) held)
  · exact Or.inr (size found _ 2 8 (by decide) held)

theorem value?_of_form {text : String} {form : Form} (read : Form.ofText? text = some form) (vars : Variables) :
    value? vars text = evalForm vars (2 * vars.written.length + 3) form := by
  obtain ⟨m, found, read⟩ := bind_eq_some_iff.mp read
  simp only [value?, found, valueOf, read]

theorem hexByte_byte : ∀ n < 256, (hexByte false n).toList.length = 2 ∧
    (∀ d ∈ (hexByte false n).toList, d ∈ asciiHexDigits) ∧ hexNumeral (hexByte false n).toList = n := by
  simp only [hexByte, toList_ofList, Bool.false_eq_true, if_false]
  decide +kernel

theorem accepts_asciiHexDigits : ∀ d ∈ asciiHexDigits, hexChar.accepts {} d = true := by
  decide

/-- Three channels that are written behind a hash are read back, with alpha from two more digits only. -/
theorem parse_channels {r g b : Nat} (red : IsByte r) (green : IsByte g) (blue : IsByte b) {tail : List Char}
    (hex : ∀ d ∈ tail, d ∈ asciiHexDigits) (short : tail.length ≤ 2) :
    Rgba.parse (digitsOfChannels [r, g, b] ++ ofList tail) =
      .ok { r, g, b, a := if tail.length = 2 then hexNumeral tail else 255 } := by
  have below {n : Nat} (byte : IsByte n) : n < 256 := by
    have high := byte.2
    omega
  obtain ⟨rSize, rHex, rValue⟩ := hexByte_byte r (below red)
  obtain ⟨gSize, gHex, gValue⟩ := hexByte_byte g (below green)
  obtain ⟨bSize, bHex, bValue⟩ := hexByte_byte b (below blue)
  have text : digitsOfChannels [r, g, b] ++ ofList tail = ofList ('#' ::
      ((hexByte false r).toList ++ (hexByte false g).toList ++ (hexByte false b).toList ++ tail)) := by
    rw [← toList_inj]
    simp [digitsOfChannels, String.join]
  have every : ∀ d ∈ (hexByte false r).toList ++ (hexByte false g).toList ++ (hexByte false b).toList ++ tail,
      d ∈ asciiHexDigits := by
    simp only [mem_append]
    rintro d (((red | green) | blue) | alpha)
    exacts [rHex d red, gHex d green, bHex d blue, hex d alpha]
  rw [text, Rgba.parse_pairs rSize gSize bSize (fun d member => accepts_asciiHexDigits d (every d member)) short, rValue,
    gValue, bValue]

theorem hexNumeral_pair (c d : Char) : (hexNumeral [c, d] : Int) = 16 * digitOf c + digitOf d := by
  simp only [hexNumeral, foldl_cons, foldl_nil, digitOf]
  omega

theorem exists_pair {n : Nat} {digits : List Char} (size : digits.length = n + 2) :
    ∃ c d rest, digits = c :: d :: rest ∧ rest.length = n := by
  obtain ⟨c, _, rfl, shorter⟩ := length_eq_succ_iff.mp size
  obtain ⟨d, rest, rfl, last⟩ := length_eq_succ_iff.mp shorter
  exact ⟨c, d, rest, rfl, last⟩

theorem digitOf_eq_fifteen : ∀ d ∈ asciiHexDigits, 17 * digitOf d = 255 ↔ d = 'f' ∨ d = 'F' := by
  decide

/-- A colour of digits behind a hash keeps its red, green and blue channels. It keeps its alpha channel as well,
but for a single digit of alpha: that digit is lost, so it has to be an `f`. -/
theorem hash_colour_kept_iff {text digits : String}
    (matched : Form.ofText? text = some (.short digits) ∨ Form.ofText? text = some (.long digits))
    (ascii : ∀ d ∈ digits.toList, d ∈ asciiHexDigits) :
    ∃ value colour, value? {} text = .ok (some value) ∧ Rgba.parse value = .ok colour ∧
      colour.r = (denotedColour digits.toList).r ∧ colour.g = (denotedColour digits.toList).g ∧
      colour.b = (denotedColour digits.toList).b ∧
      (colour = denotedColour digits.toList ↔ ∀ d, digits.toList.drop 3 = [d] → d = 'f' ∨ d = 'F') := by
  have hex (n : Nat) : ∀ d ∈ digits.toList.drop n, d ∈ asciiHexDigits := fun d member =>
    ascii d (mem_of_mem_drop member)
  have double (c : Char) : (hexNumeral [c, c] : Int) = 17 * digitOf c := by
    rw [hexNumeral_pair]
    omega
  rcases matched with read | read
  · refine ⟨digitsValue 1 digits, _, value?_of_form read {}, parse_channels (isByte_nibbleAt _ 0) (isByte_nibbleAt _ 1)
      (isByte_nibbleAt _ 2) (hex _) ?_, ?_⟩
    · rcases lengths_of_form.1 read with size | size <;> simp [size]
    rcases lengths_of_form.1 read with three | four
    · obtain ⟨r, g, b, same⟩ := length_eq_three.mp three
      simp [same, nibbleAt, double, denotedColour]
    · obtain ⟨r, g, b, a, same⟩ := length_eq_four.mp four
      have last := digitOf_eq_fifteen a (ascii a (by simp [same]))
      simp [same, nibbleAt, double, denotedColour, ← last, eq_comm]
  · refine ⟨digitsValue 2 digits, _, value?_of_form read {}, parse_channels (isByte_byteAt _ 0) (isByte_byteAt _ 2)
      (isByte_byteAt _ 4) (hex _) ?_, ?_⟩
    · rcases lengths_of_form.2 read with size | size <;> simp [size]
    rcases lengths_of_form.2 read with six | eight
    · obtain ⟨r, r', rest, same, four⟩ := exists_pair six
      obtain ⟨g, g', b, b', rfl⟩ := length_eq_four.mp four
      simp [same, byteAt, hexNumeral_pair, denotedColour]
    · obtain ⟨r, r', rest, same, six⟩ := exists_pair eight
      obtain ⟨g, g', rest, rfl, four⟩ := exists_pair six
      obtain ⟨b, b', a, a', rfl⟩ := length_eq_four.mp four
      simp [same, byteAt, hexNumeral_pair, denotedColour]

theorem hash_colour_kept_iff_bytes :
    Form.ofText? "#12abCD80;" = some (.long "12abCD80") ∧ (∀ d ∈ "12abCD80".toList, d ∈ asciiHexDigits) ∧
      ∃ value colour, value? {} "#12abCD80;" = .ok (some value) ∧ Rgba.parse value = .ok colour ∧
        colour = { r := 18, g := 171, b := 205, a := 128 } := by
  have read : Form.ofText? "#12abCD80;" = some (.long "12abCD80") := by decide +kernel
  have ascii : ∀ d ∈ "12abCD80".toList, d ∈ asciiHexDigits := by decide
  obtain ⟨value, colour, evaluated, parsed, -, -, -, kept⟩ := hash_colour_kept_iff (Or.inr read) ascii
  refine ⟨read, ascii, value, colour, evaluated, parsed, (kept.mpr ?_).trans (by decide)⟩
  simp

/-- The alpha digit of four is lost. -/
theorem single_alpha_digit_lost :
    (value? {} "#1234").toOption.join.map (fun value => (Rgba.parse value).toOption) =
      some (some { r := 17, g := 34, b := 51, a := 255 }) ∧
    denotedColour "1234".toList = { r := 17, g := 34, b := 51, a := 68 } := by
  decide +kernel

end VhdlWorkbench.Colour

import VhdlWorkbench.Proofs.ColourText
import VhdlWorkbench.Proofs.Outcomes

/-!
The channels of a colour stay from 0 to 255 under its filters, also if they fail.
-/

namespace VhdlWorkbench

theorem roundDiv_le (tie : Tie) {num den k : Nat} (proper : 0 < den) (most : num ≤ k * den) :
    roundDiv tie num den ≤ k := by
  have whole : num / den ≤ k := Nat.div_le_of_le_mul (by rwa [Nat.mul_comm])
  rcases Nat.lt_or_eq_of_le whole with below | exact_
  · simp only [roundDiv]
    split <;> omega
  · have rest : num % den = 0 := by
      have parts := Nat.div_add_mod num den
      rw [exact_, Nat.mul_comm] at parts
      omega
    simp only [roundDiv, rest, exact_]
    rw [if_neg (by simp; omega)]

theorem fraction?_proper {x : Number} {negative : Bool} {num den : Nat}
    (found : x.fraction? = some (negative, num, den)) : 0 < den := by
  cases x with
  | int n =>
    simp only [Number.fraction?, Option.some.injEq, Prod.mk.injEq] at found
    omega
  | real x =>
    simp only [Number.fraction?, Option.map_eq_some_iff] at found
    obtain ⟨d, -, same⟩ := found
    simp only [Dyadic.fraction, Prod.mk.injEq] at same
    have power : 0 < Nat.pow 2 d.exponent.natAbs := Nat.pow_pos (by decide)
    split at same
    · obtain ⟨-, -, rfl⟩ := same
      decide
    · obtain ⟨-, -, rfl⟩ := same
      exact power

theorem roundInt_eq_ok {x : Number} {n : Int} (rounded : roundInt x = .ok n) :
    ∃ negative num den, x.fraction? = some (negative, num, den) ∧ 0 < den ∧
      n = (if negative then -1 else 1) * (roundDiv .towardZero num den : Int) := by
  obtain ⟨⟨negative, m⟩, done, last⟩ := bind_eq_ok.mp rounded
  unfold quantize at done
  cases found : x.fraction? with
  | none => simp [found] at done
  | some parts =>
    obtain ⟨sign, num, den⟩ := parts
    simp only [found, Nat.pow_eq, Nat.pow_zero, Nat.mul_one] at done
    split at done
    · simp at done
    · obtain ⟨rfl, rfl⟩ := Prod.mk.inj (Except.ok.inj done)
      refine ⟨sign, num, den, rfl, fraction?_proper found, ?_⟩
      cases last
      cases sign <;> simp

theorem roundInt_clamp_byte {x : Float} {n : Int}
    (rounded : roundInt (Number.clamp (.real x) (.int 0) (.int 255)) = .ok n) : 0 ≤ n ∧ n ≤ 255 := by
  unfold Number.clamp Number.min at rounded
  cases high : (Number.int 255).lt (.real x) with
  | true =>
    rw [high, if_pos rfl] at rounded
    cases rounded
    decide
  | false =>
    rw [high, if_neg Bool.false_ne_true] at rounded
    unfold Number.max at rounded
    cases low : (Number.real x).lt (.int 0) with
    | true =>
      rw [low, if_pos rfl] at rounded
      cases rounded
      decide
    | false =>
      -- the comparisons are exact, so the fraction itself is within the bounds
      rw [low, if_neg Bool.false_ne_true] at rounded
      obtain ⟨negative, num, den, found, proper, rfl⟩ := roundInt_eq_ok rounded
      simp only [Number.lt] at high low
      rw [found] at high low
      have within : 0 ≤ (if negative then -1 else 1) * (num : Int) ∧
          (if negative then -1 else 1) * (num : Int) ≤ 255 * den := by
        simpa [Number.fraction?] using And.intro low high
      cases negative with
      | false =>
        have most := roundDiv_le .towardZero proper (show num ≤ 255 * den by simp at within; omega)
        simp
        omega
      | true =>
        have most := roundDiv_le .towardZero proper (show num ≤ 0 * den by simp at within; omega)
        simp
        omega

end VhdlWorkbench

namespace VhdlWorkbench.Colour

/-- A step keeps the channels within bounds, whether it fails or not, and what it gives has a property. -/
def Keeps {α : Type} (f : Filter α) (Q : α → Prop) : Prop :=
  ∀ c : Rgba, c.InRange → (f.run.run c).2.InRange ∧ ∀ a, (f.run.run c).1 = .ok a → Q a

namespace Keeps

variable {α β : Type} {f : Filter α} {g : α → Filter β} {Q : α → Prop} {R : β → Prop}

theorem pure {a : α} (holds : Q a) : Keeps (Pure.pure a) Q := by
  intro c inside
  refine ⟨inside, ?_⟩
  rintro b ⟨⟩
  exact holds

theorem bind (first : Keeps f Q) (next : ∀ a, Q a → Keeps (g a) R) : Keeps (f >>= g) R := by
  intro c inside
  obtain ⟨kept, gives⟩ := first c inside
  rcases done : f.run.run c with ⟨e | a, c'⟩
  · have stops : (f >>= g).run.run c = (.error e, c') := by
      rw [ExceptT.run_bind, StateT.run_bind, done]
      rfl
    rw [stops]
    rw [done] at kept
    exact ⟨kept, nofun⟩
  · have goes : (f >>= g).run.run c = (g a).run.run c' := by
      rw [ExceptT.run_bind, StateT.run_bind, done]
      rfl
    rw [goes]
    rw [done] at kept gives
    exact next a (gives a rfl) c' kept

theorem get : Keeps get Rgba.InRange := by
  intro c inside
  refine ⟨inside, ?_⟩
  rintro b ⟨⟩
  exact inside

theorem lift {e : Except Fault α} (gives : ∀ a, e = .ok a → Q a) : Keeps (Filter.lift e) Q :=
  fun _ inside => ⟨inside, gives⟩

theorem modify {change : Rgba → Rgba} (keeps : ∀ c : Rgba, c.InRange → (change c).InRange) :
    Keeps (modify change) fun _ => True :=
  fun c inside => ⟨keeps c inside, fun _ _ => trivial⟩

theorem set {c : Rgba} (inside : c.InRange) : Keeps (set c) fun _ => True :=
  fun _ _ => ⟨inside, fun _ _ => trivial⟩

end Keeps

theorem isByte_channel (n : Int) : IsByte (channel n) := by
  unfold channel IsByte
  omega

theorem isByte_roundChannel {x : Float} {n : Int} (rounded : roundChannel x = .ok n) : IsByte n := by
  obtain ⟨m, -, rfl⟩ := map_eq_ok.mp rounded
  exact isByte_channel m

theorem isByte_mixChannels {foreground alpha background backgroundAlpha n : Int}
    (mixed : mixChannels foreground alpha background backgroundAlpha = .ok n) : IsByte n :=
  isByte_roundChannel mixed

theorem isByte_shiftChannel {value n : Int} {factor : Float}
    (shifted : shiftChannel value factor = .ok n) : IsByte n :=
  roundInt_clamp_byte shifted

theorem isByte_flipByte {n : Int} (byte : IsByte n) : IsByte (flipByte n) := by
  unfold flipByte IsByte at *
  omega

section filters

variable {e : Except Fault Int}

section

variable (given : ∀ v, e = .ok v → IsByte v)
include given

theorem keeps_setRed : Keeps (setRed e) fun _ => True :=
  (Keeps.lift given).bind fun _ byte =>
    Keeps.modify fun _ inside => ⟨byte, inside.green, inside.blue, inside.alpha⟩

theorem keeps_setGreen : Keeps (setGreen e) fun _ => True :=
  (Keeps.lift given).bind fun _ byte =>
    Keeps.modify fun _ inside => ⟨inside.red, byte, inside.blue, inside.alpha⟩

theorem keeps_setBlue : Keeps (setBlue e) fun _ => True :=
  (Keeps.lift given).bind fun _ byte =>
    Keeps.modify fun _ inside => ⟨inside.red, inside.green, byte, inside.alpha⟩

theorem keeps_setAlpha : Keeps (setAlpha e) fun _ => True :=
  (Keeps.lift given).bind fun _ byte =>
    Keeps.modify fun _ inside => ⟨inside.red, inside.green, inside.blue, byte⟩

end

theorem keeps_setColours {r g b : Except Fault Int} (red : ∀ v, r = .ok v → IsByte v)
    (green : ∀ v, g = .ok v → IsByte v) (blue : ∀ v, b = .ok v → IsByte v) :
    Keeps (do setRed r; setGreen g; setBlue b) fun _ => True :=
  (keeps_setRed red).bind fun _ _ => (keeps_setGreen green).bind fun _ _ => keeps_setBlue blue

theorem keeps_setComponents (rgb : Triple) : Keeps (setComponents rgb) fun _ => True :=
  keeps_setColours (fun _ => isByte_roundChannel) (fun _ => isByte_roundChannel) fun _ => isByte_roundChannel

theorem keeps_read {α : Type} (f : Rgba → α) : Keeps (return f (← get)) fun _ => True :=
  Keeps.get.bind fun _ _ => Keeps.pure trivial

theorem keeps_toHls : Keeps toHls fun _ => True :=
  keeps_read _

theorem keeps_toHsv : Keeps toHsv fun _ => True :=
  keeps_read _

theorem keeps_toHwb : Keeps toHwb fun _ => True :=
  keeps_toHsv.bind fun _ _ => Keeps.pure trivial

theorem keeps_fromHls (h l s : Float) : Keeps (fromHls h l s) fun _ => True :=
  keeps_setComponents _

theorem keeps_fromHsv (h s v : Float) : Keeps (fromHsv h s v) fun _ => True :=
  (Keeps.lift fun _ _ => trivial).bind fun _ (_ : True) => keeps_setComponents _

theorem keeps_fromHwb (h w b : Float) : Keeps (fromHwb h w b) fun _ => True :=
  (Keeps.lift fun _ _ => trivial).bind fun _ (_ : True) => keeps_fromHsv _ _ _

theorem keeps_applyAlpha (background : String) : Keeps (applyAlpha background) fun _ => True := by
  refine Keeps.get.bind fun c _ => ?_
  split
  · exact (Keeps.lift fun _ _ => trivial).bind fun _ (_ : True) =>
      (keeps_setRed fun _ => isByte_mixChannels).bind fun _ _ =>
        (keeps_setGreen fun _ => isByte_mixChannels).bind fun _ _ =>
          (keeps_setBlue fun _ => isByte_mixChannels).bind fun _ _ => keeps_read _
  · exact keeps_read _

theorem keeps_perceivedLuminance : Keeps perceivedLuminance IsByte :=
  Keeps.get.bind fun _ _ => Keeps.lift fun _ => isByte_roundChannel

theorem keeps_trueLuminance : Keeps trueLuminance fun _ => True :=
  keeps_toHls.bind fun _ _ => Keeps.lift fun _ _ => trivial

theorem keeps_blend (other : String) (percent : Float) (withAlpha : Bool) :
    Keeps (blend other percent withAlpha) fun _ => True := by
  refine (Keeps.lift fun _ _ => trivial).bind fun _ (_ : True) => Keeps.get.bind fun c _ =>
    (Keeps.lift fun _ _ => trivial).bind fun _ (_ : True) =>
      (keeps_setRed fun _ => isByte_mixChannels).bind fun _ _ =>
        (keeps_setGreen fun _ => isByte_mixChannels).bind fun _ _ =>
          (keeps_setBlue fun _ => isByte_mixChannels).bind fun _ _ => ?_
  cases withAlpha with
  | true => exact keeps_setAlpha fun _ => isByte_mixChannels
  | false => exact Keeps.pure trivial

theorem keeps_adjustContrast (factor : Float) : Keeps (adjustContrast factor) fun _ => True :=
  Keeps.get.bind fun _ _ => keeps_setColours (fun _ => isByte_roundChannel) (fun _ => isByte_roundChannel)
    fun _ => isByte_roundChannel

theorem keeps_invert : Keeps invert fun _ => True :=
  Keeps.modify fun _ inside =>
    ⟨isByte_flipByte inside.red, isByte_flipByte inside.green, isByte_flipByte inside.blue, inside.alpha⟩

theorem keeps_grayscale : Keeps grayscale fun _ => True :=
  keeps_perceivedLuminance.bind fun _ byte => Keeps.modify fun _ inside => ⟨byte, byte, byte, inside.alpha⟩

theorem keeps_sepia : Keeps sepia fun _ => True :=
  Keeps.get.bind fun _ inside =>
    (Keeps.lift fun _ => isByte_roundChannel).bind fun _ red =>
      (Keeps.lift fun _ => isByte_roundChannel).bind fun _ green =>
        (Keeps.lift fun _ => isByte_roundChannel).bind fun _ blue => Keeps.set ⟨red, green, blue, inside.alpha⟩

theorem keeps_adjustBrightness (factor : Float) : Keeps (adjustBrightness factor) fun _ => True := by
  have white : IsByte 255 := by decide
  have black : IsByte 0 := by decide
  refine Keeps.get.bind fun c inside => keeps_perceivedLuminance.bind fun l _ => ?_
  dsimp only
  split
  · exact Keeps.set ⟨white, white, white, inside.alpha⟩
  split
  · exact Keeps.set ⟨black, black, black, inside.alpha⟩
  split
  · exact keeps_setColours (fun _ => isByte_roundChannel) (fun _ => isByte_roundChannel)
      fun _ => isByte_roundChannel
  · exact Keeps.pure trivial

end filters

/-- Every call keeps the channels within bounds. -/
theorem keeps_run (call : Call) : Keeps call.run fun _ => True := by
  have done {f : Filter Unit} (kept : Keeps f fun _ => True) :
      Keeps (do f; return Answer.nothing) fun _ => True := kept.bind fun _ _ => Keeps.pure trivial
  have answer {α : Type} {f : Filter α} {g : α → Answer} {Q : α → Prop} (kept : Keeps f Q) :
      Keeps (do return g (← f)) fun _ => True := kept.bind fun _ _ => Keeps.pure trivial
  cases call with
  | channels s => exact (Keeps.lift fun _ _ => trivial).bind fun _ (_ : True) => Keeps.pure trivial
  | rgbText => exact keeps_read _
  | text => exact keeps_read _
  | toHls => exact answer keeps_toHls
  | toHsv => exact answer keeps_toHsv
  | toHwb => exact answer keeps_toHwb
  | fromHls h l s => exact done (keeps_fromHls h l s)
  | fromHsv h s v => exact done (keeps_fromHsv h s v)
  | fromHwb h w b => exact done (keeps_fromHwb h w b)
  | perceivedLuminance => exact answer keeps_perceivedLuminance
  | trueLuminance => exact answer keeps_trueLuminance
  | applyAlpha background => exact answer (keeps_applyAlpha background)
  | alpha factor => exact done (Keeps.get.bind fun _ _ => keeps_setAlpha fun _ => isByte_shiftChannel)
  | red factor => exact done (Keeps.get.bind fun _ _ => keeps_setRed fun _ => isByte_shiftChannel)
  | green factor => exact done (Keeps.get.bind fun _ _ => keeps_setGreen fun _ => isByte_shiftChannel)
  | blue factor => exact done (Keeps.get.bind fun _ _ => keeps_setBlue fun _ => isByte_shiftChannel)
  | luminance factor => exact done (keeps_toHls.bind fun _ _ => keeps_fromHls _ _ _)
  | saturation factor => exact done (keeps_toHls.bind fun _ _ => keeps_fromHls _ _ _)
  | contrast factor => exact done (keeps_adjustContrast factor)
  | brightness factor => exact done (keeps_adjustBrightness factor)
  | hue degrees => exact done (keeps_toHls.bind fun _ _ => keeps_fromHls _ _ _)
  | colorize degrees => exact done (keeps_toHls.bind fun _ _ => keeps_fromHls _ _ _)
  | invert => exact done keeps_invert
  | grayscale => exact done keeps_grayscale
  | sepia => exact done keeps_sepia
  | blend other percent withAlpha =>
    exact (Keeps.lift fun _ _ => trivial).bind fun x (_ : True) => done (keeps_blend other x withAlpha)
  | overage value => exact Keeps.pure trivial
  | distribute components excess slots => exact Keeps.pure trivial

theorem Rgba.InRange.after {c : Rgba} (inside : c.InRange) (calls : List Call) : (c.after calls).InRange := by
  induction calls generalizing c with
  | nil => exact inside
  | cons call calls ih => exact ih (keeps_run call c inside).1

/-- After any calls, failing ones included, the channels of a colour are from 0 to 255; so it is written as a hash
and eight digits, and read back as it is. -/
theorem channels_in_range_after {c : Rgba} (made : c = {} ∨ ∃ s, Rgba.parse s = .ok c) (calls : List Call) :
    (c.after calls).InRange ∧
      (∃ digits, (c.after calls).toText = String.ofList ('#' :: digits) ∧ digits.length = 8 ∧
        ∀ d ∈ digits, d ∈ hexDigits) ∧
      Rgba.parse (c.after calls).toText = .ok (c.after calls) := by
  have inside : c.InRange := by
    rcases made with rfl | ⟨s, read⟩
    · exact ⟨by decide, by decide, by decide, by decide⟩
    · exact Rgba.inRange_of_parse read
  exact ⟨inside.after calls, Rgba.parse_toText (inside.after calls)⟩

/-- A colour with an alpha channel, inverted, blended by what is no percentage, and moved beyond all bounds. -/
theorem channels_in_range_after_failure :
    Rgba.parse "#1a2B3c4d" = .ok ⟨26, 43, 60, 77⟩ ∧
      (Rgba.mk 26 43 60 77).after [.invert, .blend "#fff" (.written "half") true] = ⟨229, 212, 195, 77⟩ ∧
      Rgba.parse (Rgba.mk 229 212 195 77).toText = .ok ⟨229, 212, 195, 77⟩ ∧
      ((Rgba.mk 26 43 60 77).after [.invert, .red (1.0 / 0.0), .hue (-500.0), .contrast (0.0 / 0.0)]).InRange := by
  have read : Rgba.parse "#1a2B3c4d" = .ok ⟨26, 43, 60, 77⟩ := by decide
  have failed : (Rgba.mk 26 43 60 77).after [.invert, .blend "#fff" (.written "half") true] = ⟨229, 212, 195, 77⟩ := by
    decide
  refine ⟨read, failed, ?_, (channels_in_range_after (Or.inr ⟨_, read⟩) _).1⟩
  rw [← failed]
  exact (channels_in_range_after (Or.inr ⟨_, read⟩) _).2.2

end VhdlWorkbench.Colour

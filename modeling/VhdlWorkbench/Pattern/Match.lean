import VhdlWorkbench.Pattern.Basic

/-!
Matching. Running a pattern from a thread hands each thread that it can reach to a continuation, in the order of
preference, and answers with the first success. A repetition stops after one round that consumed nothing, so at most
one round more than there are characters left can start.
-/

namespace VhdlWorkbench.Pattern

/-- A place in the text and the spans of the groups captured on the way there. -/
structure Thread where
  pos : Nat
  spans : Array (Option (Nat × Nat))
deriving DecidableEq, Repr

/-- What follows a pattern: a success or none from the thread that the pattern has reached. -/
abbrev Continuation := Thread → Option Thread

def Anchor.holds (text : Array Char) (o : Options) (a : Anchor) (pos : Nat) : Bool :=
  let before := if pos = 0 then none else text[pos - 1]?
  let after := text[pos]?
  let wordy (c? : Option Char) : Bool := (c?.map (Category.accepts o .word)).getD false
  match a with
  | .lineStart => pos == 0 || (o.multiline && before == some '\n')
  | .lineEnd =>
    pos == text.size || (after == some '\n' && (o.multiline || pos + 1 == text.size))
  | .textStart => pos == 0
  | .textEnd => pos == text.size
  | .wordEdge => wordy before != wordy after
  | .noWordEdge => text.size != 0 && wordy before == wordy after

/-- The number of characters from `pos` on, at most `limit`, that a single pattern accepts. -/
def runLength (text : Array Char) (o : Options) (s : Single) : Nat → Nat → Nat
  | 0, _ => 0
  | limit + 1, pos =>
    match text[pos]? with
    | none => 0
    | some c => if s.accepts o c then runLength text o s limit (pos + 1) + 1 else 0

/-- Tail-recursive form of `runLength`. -/
def runLengthFrom (text : Array Char) (o : Options) (s : Single) : Nat → Nat → Nat → Nat
  | 0, _, n => n
  | limit + 1, pos, n =>
    match text[pos]? with
    | none => n
    | some c => if s.accepts o c then runLengthFrom text o s limit (pos + 1) (n + 1) else n

theorem runLengthFrom_eq (text : Array Char) (o : Options) (s : Single) (limit pos n : Nat) :
    runLengthFrom text o s limit pos n = n + runLength text o s limit pos := by
  induction limit generalizing pos n with
  | zero => simp [runLengthFrom, runLength]
  | succ limit ih =>
    unfold runLengthFrom runLength
    split
    · simp
    · split
      · rw [ih]; omega
      · simp

/-- Continues after `lo + n`, `lo + n - 1`, … `lo` characters, the longest first. -/
def longestFirst (t : Thread) (lo : Nat) (k : Continuation) : Nat → Option Thread
  | 0 => k { t with pos := t.pos + lo }
  | n + 1 =>
    match k { t with pos := t.pos + lo + n + 1 } with
    | some r => some r
    | none => longestFirst t lo k n

/-- Continues from the thread, then from one accepted character later, up to `n` times. -/
def shortestFirst (text : Array Char) (o : Options) (s : Single) (k : Continuation) :
    Nat → Thread → Option Thread
  | 0, t => k t
  | n + 1, t =>
    match k t with
    | some r => some r
    | none =>
      match text[t.pos]? with
      | none => none
      | some c =>
        if s.accepts o c then shortestFirst text o s k n { t with pos := t.pos + 1 } else none

def runSingle (text : Array Char) (o : Options) (s : Single) (lo : Nat) (hi : Option Nat)
    (greed : Greed) (t : Thread) (k : Continuation) : Option Thread :=
  let limit := min (hi.getD (text.size - t.pos)) (text.size - t.pos)
  match greed with
  | .greedy =>
    let n := runLengthFrom text o s limit t.pos 0
    if n < lo then none else longestFirst t lo k (n - lo)
  | .lazy =>
    let n := runLengthFrom text o s (min lo limit) t.pos 0
    if n < lo then none
    else shortestFirst text o s k (limit - lo) { t with pos := t.pos + lo }
  | .possessive =>
    let n := runLengthFrom text o s limit t.pos 0
    if n < lo then none else k { t with pos := t.pos + n }

/-- Runs a body exactly `n` times. -/
def exactly (body : Thread → Continuation → Option Thread) (k : Continuation) :
    Nat → Thread → Option Thread
  | 0, t => k t
  | n + 1, t => body t fun t' => exactly body k n t'

/-- Runs a body up to `more` times (`none` for any number), longest first. The fuel counts rounds; a
round that consumes nothing is the last. -/
def repeatGreedy (body : Thread → Continuation → Option Thread) (k : Continuation) :
    Nat → Option Nat → Thread → Option Thread
  | 0, _, t => k t
  | fuel + 1, more, t =>
    if more == some 0 then k t
    else
      match body t fun t' =>
          if t'.pos == t.pos then k t' else repeatGreedy body k fuel (more.map (· - 1)) t' with
      | some r => some r
      | none => k t

/-- Runs a body up to `more` times (`none` for any number), shortest first. -/
def repeatLazy (body : Thread → Continuation → Option Thread) (k : Continuation) :
    Nat → Option Nat → Thread → Option Thread
  | 0, _, t => k t
  | fuel + 1, more, t =>
    match k t with
    | some r => some r
    | none =>
      if more == some 0 then none
      else
        body t fun t' =>
          if t'.pos == t.pos then k t' else repeatLazy body k fuel (more.map (· - 1)) t'

/-- The thread after a body has run `n` times, each round with its first success. -/
def exactlyFirst (body : Thread → Continuation → Option Thread) : Nat → Thread → Option Thread
  | 0, t => some t
  | n + 1, t =>
    match body t some with
    | none => none
    | some t' => exactlyFirst body n t'

/-- The thread after a body has run up to `more` times (`none` for any number), as often as it can, each
round with its first success. -/
def repeatFirst (body : Thread → Continuation → Option Thread) : Nat → Option Nat → Thread → Thread
  | 0, _, t => t
  | fuel + 1, more, t =>
    if more == some 0 then t
    else
      match body t some with
      | none => t
      | some t' =>
        if t'.pos == t.pos then t' else repeatFirst body fuel (more.map (· - 1)) t'

def segment (text : Array Char) (start stop : Nat) : List Char :=
  (text.extract start stop).toList

/-- The text at a place begins with the given characters, compared under the options. -/
def standsAt (text : Array Char) (o : Options) : List Char → Nat → Bool
  | [], _ => true
  | p :: rest, pos =>
    match text[pos]? with
    | none => false
    | some c =>
      (if o.ignoreCase then foldCode o p.toNat == foldCode o c.toNat else p == c) &&
        standsAt text o rest (pos + 1)

def wordStandsAt (text : Array Char) (o : Options) : List Char → Nat → Bool
  | [], _ => true
  | p :: rest, pos =>
    match text[pos]? with
    | none => false
    | some c => Single.accepts o (.char p) c && wordStandsAt text o rest (pos + 1)

def exec (text : Array Char) : Node → Options → Thread → Continuation → Option Thread
  | .empty, _, t, k => k t
  | .one s, o, t, k =>
    match text[t.pos]? with
    | none => none
    | some c => if s.accepts o c then k { t with pos := t.pos + 1 } else none
  | .run s lo hi greed, o, t, k => runSingle text o s lo hi greed t k
  | .seq a b, o, t, k => exec text a o t fun t' => exec text b o t' k
  | .alt a b, o, t, k =>
    match exec text a o t k with
    | some r => some r
    | none => exec text b o t k
  | .rep body lo hi greed, o, t, k =>
    let fuel := text.size - t.pos + 1
    let more := hi.map (· - lo)
    match greed with
    | .greedy => exactly (exec text body o) (repeatGreedy (exec text body o) k fuel more) lo t
    | .lazy => exactly (exec text body o) (repeatLazy (exec text body o) k fuel more) lo t
    | .possessive =>
      match exactlyFirst (exec text body o) lo t with
      | none => none
      | some t' => k (repeatFirst (exec text body o) fuel more t')
  | .capture slot _ body, o, t, k =>
    exec text body o t fun t' =>
      k { t' with spans := t'.spans.setIfInBounds slot (some (t.pos, t'.pos)) }
  | .group body, o, t, k => exec text body o t k
  | .scoped on off body, o, t, k => exec text body (o.adjust on off) t k
  | .ref slot, o, t, k =>
    match t.spans[slot]? with
    | some (some (start, stop)) =>
      if standsAt text o (segment text start stop) t.pos then
        k { t with pos := t.pos + (stop - start) }
      else none
    | _ => none
  | .anchor a, o, t, k => if a.holds text o t.pos then k t else none
  | .look behind negated body, o, t, k =>
    let back := behind.getD 0
    let found :=
      if t.pos < back then none else exec text body o { t with pos := t.pos - back } some
    match found, negated with
    | some t', false => k { t' with pos := t.pos }
    | none, true => k t
    | _, _ => none
  | .whenSet slot yes no, o, t, k =>
    match t.spans[slot]? with
    | some (some _) => exec text yes o t k
    | _ => exec text no o t k
  | .atomic body, o, t, k =>
    match exec text body o t some with
    | none => none
    | some t' => k t'
  | .pasted word, o, t, k =>
    if wordStandsAt text o word.toList t.pos then k { t with pos := t.pos + word.length } else none

end VhdlWorkbench.Pattern

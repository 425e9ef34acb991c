import VhdlWorkbench.Editor.Workspace

/-!
Running actions: the result that an action gives and the workspace that it leaves behind.
-/

namespace VhdlWorkbench.Editor.Act

variable {α β : Type} {w w' : Workspace}

/-- What an action does on a workspace: its outcome and the workspace that it leaves behind. -/
def outcome (x : Act α) (w : Workspace) : Except Fault α × Workspace :=
  x.run.run w

/-- An action on a workspace gives a result and leaves a workspace behind. -/
def Yields (x : Act α) (w : Workspace) (a : α) (w' : Workspace) : Prop :=
  outcome x w = (.ok a, w')

theorem outcome_bind (x : Act α) (f : α → Act β) (w : Workspace) :
    outcome (x >>= f) w =
      match outcome x w with
      | (.ok a, v) => outcome (f a) v
      | (.error e, v) => (.error e, v) := by
  have runs : outcome (x >>= f) w =
      match outcome x w with
      | (result, v) => (ExceptT.bindCont f result : StateM Workspace (Except Fault β)) v := rfl
  rw [runs]
  rcases outcome x w with ⟨result, v⟩
  cases result with
  | ok a => rfl
  | error e => rfl

theorem yields_bind {x : Act α} {f : α → Act β} {b : β} :
    Yields (x >>= f) w b w' ↔ ∃ a v, Yields x w a v ∧ Yields (f a) v b w' := by
  simp only [Yields, outcome_bind]
  rcases outcome x w with ⟨result, v⟩
  cases result with
  | ok a => simp [and_assoc]
  | error e => simp

theorem outcome_of_yields {x : Act α} {a : α} {v : Workspace} (given : Yields x w a v) (f : α → Act β) :
    outcome (x >>= f) w = outcome (f a) v := by
  rw [outcome_bind, given]

theorem yields_pure {a b : α} : Yields (pure a) w b w' ↔ b = a ∧ w' = w := by
  show ((.ok a, w) : Except Fault α × Workspace) = (.ok b, w') ↔ _
  simp [eq_comm]

theorem yields_get {v : Workspace} : Yields get w v w' ↔ v = w ∧ w' = w := by
  show ((.ok w, w) : Except Fault Workspace × Workspace) = (.ok v, w') ↔ _
  simp [eq_comm]

theorem yields_set {v : Workspace} {a : PUnit} : Yields (set v) w a w' ↔ w' = v := by
  show ((.ok (), v) : Except Fault Unit × Workspace) = (.ok a, w') ↔ _
  simp [eq_comm]

theorem yields_modify {f : Workspace → Workspace} {a : Unit} : Yields (modify f) w a w' ↔ w' = f w := by
  show ((.ok (), f w) : Except Fault Unit × Workspace) = (.ok a, w') ↔ _
  simp [eq_comm]

theorem yields_lift {e : Except Fault α} {a : α} : Yields (lift e) w a w' ↔ e = .ok a ∧ w' = w := by
  show ((e, w) : Except Fault α × Workspace) = (.ok a, w') ↔ _
  simp [eq_comm]

theorem yields_throw {e : Fault} {a : α} : ¬Yields (throw e) w a w' := by
  show ¬((.error e, w) : Except Fault α × Workspace) = (.ok a, w')
  simp

theorem yields_buffer {id : Nat} {b : Buffer} :
    Yields (buffer id) w b w' ↔ w.buffers.find? (·.id == id) = some b ∧ w' = w := by
  simp only [buffer, yields_bind, yields_get]
  constructor
  · rintro ⟨_, _, ⟨rfl, rfl⟩, given⟩
    split at given
    · rename_i found
      obtain ⟨rfl, rfl⟩ := yields_pure.mp given
      exact ⟨found, rfl⟩
    · exact absurd given yields_throw
  · rintro ⟨found, rfl⟩
    refine ⟨w', w', ⟨rfl, rfl⟩, ?_⟩
    rw [found]
    exact yields_pure.mpr ⟨rfl, rfl⟩

theorem yields_ask {a : Unit} :
    Yields ask w a w' ↔ w.questions < questionLimit ∧ w' = { w with questions := w.questions + 1 } := by
  simp only [ask, yields_bind, yields_get]
  constructor
  · rintro ⟨_, _, ⟨rfl, rfl⟩, given⟩
    split at given
    · obtain ⟨_, _, thrown, -⟩ := yields_bind.mp given
      exact absurd thrown yields_throw
    · rename_i free
      exact ⟨Nat.not_le.mp free, yields_set.mp given⟩
  · rintro ⟨free, rfl⟩
    refine ⟨w, w, ⟨rfl, rfl⟩, ?_⟩
    rw [if_neg (Nat.not_le.mpr free)]
    exact yields_set.mpr rfl

theorem yields_contents {id : Nat} {text : String} :
    Yields (contents id) w text w' ↔
      ∃ b, w.buffers.find? (·.id == id) = some b ∧ text = b.contents ∧ w.questions < questionLimit ∧
        w' = { w with questions := w.questions + 1 } := by
  simp only [contents, yields_bind, yields_ask, yields_buffer, yields_pure]
  constructor
  · rintro ⟨_, _, ⟨free, rfl⟩, b, _, ⟨found, rfl⟩, rfl, rfl⟩
    exact ⟨b, found, rfl, free, rfl⟩
  · rintro ⟨b, found, rfl, free, rfl⟩
    exact ⟨(), _, ⟨free, rfl⟩, b, _, ⟨found, rfl⟩, rfl, rfl⟩

section Questions

variable {id : Nat} {b : Buffer} (found : w.buffers.find? (·.id == id) = some b)
  (free : w.questions < questionLimit)
include found free

theorem yields_textOf (r : Region) :
    Yields (textOf id r) w (b.textOf r) { w with questions := w.questions + 1 } := by
  simp only [textOf, yields_bind, yields_ask, yields_buffer, yields_pure]
  exact ⟨(), _, ⟨free, rfl⟩, b, _, ⟨found, rfl⟩, rfl, rfl⟩

theorem yields_scopeAt (p : Int) :
    Yields (scopeAt id p) w (b.scopeName p) { w with questions := w.questions + 1 } := by
  simp only [scopeAt, yields_bind, yields_ask, yields_buffer, yields_pure]
  exact ⟨(), _, ⟨free, rfl⟩, b, _, ⟨found, rfl⟩, rfl, rfl⟩

end Questions

end VhdlWorkbench.Editor.Act

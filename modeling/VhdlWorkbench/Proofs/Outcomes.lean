import Mathlib.Data.List.Perm.Basic

/-!
Outcomes that may be faults: what a success of several steps says about each of them.
-/

namespace VhdlWorkbench

open List

variable {ε α β : Type} {f : α → Except ε β} {xs : List α} {ys : List β}

theorem bind_eq_ok {x : Except ε α} {b : β} : (x >>= f) = .ok b ↔ ∃ a, x = .ok a ∧ f a = .ok b := by
  cases x with
  | error e => simp [bind, Except.bind]
  | ok a => simp [bind, Except.bind]

theorem map_eq_ok {x : Except ε α} {f : α → β} {b : β} : x.map f = .ok b ↔ ∃ a, x = .ok a ∧ f a = b := by
  cases x with
  | error e => simp [Except.map]
  | ok a => simp [Except.map]

/-- Steps succeed together exactly if each of them does. -/
theorem mapM_eq_ok : xs.mapM f = .ok ys ↔ Forall₂ (fun x y => f x = .ok y) xs ys := by
  induction xs generalizing ys with
  | nil => simp [pure, Except.pure, eq_comm]
  | cons x xs ih => simp [mapM_cons, bind_eq_ok, ih, forall₂_cons_left_iff, pure, Except.pure, @eq_comm _ ys]

theorem exists_of_mem_mapM (done : xs.mapM f = .ok ys) {y : β} (member : y ∈ ys) : ∃ x ∈ xs, f x = .ok y := by
  obtain ⟨i, inside, rfl⟩ := getElem_of_mem member
  obtain ⟨length, each⟩ := forall₂_iff_get.mp (mapM_eq_ok.mp done)
  exact ⟨xs[i], getElem_mem _, each i (by omega) inside⟩

theorem mapM_total (total : ∀ x ∈ xs, ∃ y, f x = .ok y) : ∃ ys, xs.mapM f = .ok ys := by
  induction xs with
  | nil => exact ⟨[], rfl⟩
  | cons x xs ih =>
    obtain ⟨y, first⟩ := total x mem_cons_self
    obtain ⟨ys, others⟩ := ih fun z member => total z (mem_cons_of_mem x member)
    exact ⟨y :: ys, mapM_eq_ok.mpr (.cons first (mapM_eq_ok.mp others))⟩

/-- Where every step succeeds, the results stand in the order of the steps. -/
theorem mapM_around {x : α} {y : β} {before after : List α} (done : (before ++ x :: after).mapM f = .ok ys)
    (here : f x = .ok y) : ∃ above below, ys = above ++ y :: below ∧ above.length = before.length := by
  have each := mapM_eq_ok.mp done
  clear done
  induction before generalizing ys with
  | nil =>
    obtain ⟨_, below, same, -, rfl⟩ := forall₂_cons_left_iff.mp each
    obtain rfl := Except.ok.inj (here.symm.trans same)
    exact ⟨[], below, rfl, rfl⟩
  | cons z before ih =>
    obtain ⟨w, others, -, rest, rfl⟩ := forall₂_cons_left_iff.mp each
    obtain ⟨above, below, rfl, length⟩ := ih rest
    exact ⟨w :: above, below, rfl, congrArg (· + 1) length⟩

theorem mapM_flatten {γ δ : Type} {R : γ → α → Prop} {f : α → Except ε (List β)} {report : β → δ}
    {entries : γ → List δ} (each : ∀ x y, R x y → ∃ found, f y = .ok found ∧ found.map report = entries x)
    {zs : List γ} (related : Forall₂ R zs xs) :
    ∃ found, xs.mapM f = .ok found ∧ found.flatten.map report = zs.flatMap entries := by
  induction related with
  | nil => exact ⟨[], rfl, rfl⟩
  | cons first _ ih =>
    obtain ⟨here, read, reports⟩ := each _ _ first
    obtain ⟨found, rest, others⟩ := ih
    refine ⟨here :: found, mapM_eq_ok.mpr (.cons read (mapM_eq_ok.mp rest)), ?_⟩
    rw [flatten_cons, map_append, reports, others, flatMap_cons]

theorem mapM_congr {m : Type → Type} [Monad m] [LawfulMonad m] {f g : α → m β} (same : ∀ x ∈ xs, f x = g x) :
    xs.mapM f = xs.mapM g := by
  induction xs with
  | nil => rfl
  | cons x xs ih =>
    have rest := ih fun y member => same y (mem_cons_of_mem x member)
    rw [mapM_cons, mapM_cons, same x mem_cons_self, rest]

/-- The order of a list decides neither whether every step succeeds nor what the steps give. -/
theorem mapM_perm {zs : List α} (perm : xs.Perm zs) (done : xs.mapM f = .ok ys) :
    ∃ other, zs.mapM f = .ok other ∧ ys.Perm other := by
  obtain ⟨other, each, moved⟩ := perm_comp_forall₂ perm.symm (mapM_eq_ok.mp done)
  exact ⟨other, mapM_eq_ok.mpr each, moved.symm⟩

theorem mapM_bind_eq_ok {γ : Type} {g : β → Except ε γ} {zs : List γ} :
    xs.mapM (fun x => f x >>= g) = .ok zs ↔ ∃ ys, xs.mapM f = .ok ys ∧ ys.mapM g = .ok zs := by
  simp only [mapM_eq_ok, bind_eq_ok]
  constructor
  · intro each
    induction each with
    | nil => exact ⟨[], .nil, .nil⟩
    | cons first _ ih =>
      obtain ⟨y, here, there⟩ := first
      obtain ⟨ys, firsts, seconds⟩ := ih
      exact ⟨y :: ys, .cons here firsts, .cons there seconds⟩
  · rintro ⟨ys, firsts, seconds⟩
    induction firsts generalizing zs with
    | nil =>
      cases seconds
      exact .nil
    | cons here _ ih =>
      cases seconds with
      | cons there seconds => exact .cons ⟨_, here, there⟩ (ih seconds)

end VhdlWorkbench

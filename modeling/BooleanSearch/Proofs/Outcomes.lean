import Mathlib.Data.List.Forall2

/-!
# Outcomes

When a sequence of steps that may fail succeeds, each of its steps does. When it fails, its failure
is that of one of its steps.
-/

namespace BooleanSearch

variable {ε α β : Type}

theorem bind_eq_ok {x : Except ε α} {f : α → Except ε β} {b : β} :
    (x >>= f) = .ok b ↔ ∃ a, x = .ok a ∧ f a = .ok b := by
  cases x with
  | error e => simp [bind, Except.bind]
  | ok a => simp [bind, Except.bind]

theorem bind_eq_error {x : Except ε α} {f : α → Except ε β} {e : ε} :
    (x >>= f) = .error e ↔ x = .error e ∨ ∃ a, x = .ok a ∧ f a = .error e := by
  cases x with
  | error e' => simp [bind, Except.bind]
  | ok a => simp [bind, Except.bind]

theorem map_eq_ok {x : Except ε α} {f : α → β} {b : β} :
    x.map f = .ok b ↔ ∃ a, x = .ok a ∧ f a = b := by
  cases x with
  | error e => simp [Except.map]
  | ok a => simp [Except.map]

theorem map_eq_error {x : Except ε α} {f : α → β} {e : ε} :
    x.map f = .error e ↔ x = .error e := by
  cases x with
  | error e' => simp [Except.map]
  | ok a => simp [Except.map]

theorem mapError_eq_ok {ε' : Type} {x : Except ε α} {f : ε → ε'} {a : α} :
    x.mapError f = .ok a ↔ x = .ok a := by
  cases x with
  | error e => simp [Except.mapError]
  | ok b => simp [Except.mapError]

theorem mapError_bind_congr {ε' : Type} {k : ε → ε'} {x y : Except ε α}
    (h : x.mapError k = y.mapError k) (f : α → Except ε β) :
    (x >>= f).mapError k = (y >>= f).mapError k := by
  cases x with
  | error e =>
    cases y with
    | error e' => exact congrArg Except.error (Except.error.inj h)
    | ok b => cases h
  | ok a =>
    cases y with
    | error e' => cases h
    | ok b =>
      obtain rfl : a = b := Except.ok.inj h
      rfl

theorem mapM_eq_ok {f : α → Except ε β} {xs : List α} {ys : List β} :
    xs.mapM f = .ok ys ↔ List.Forall₂ (fun x y => f x = .ok y) xs ys := by
  induction xs generalizing ys with
  | nil =>
    rw [List.mapM_nil, List.forall₂_nil_left_iff]
    exact ⟨fun h => (Except.ok.inj h).symm, fun h => h ▸ rfl⟩
  | cons x xs ih =>
    rw [List.mapM_cons, bind_eq_ok, List.forall₂_cons_left_iff]
    constructor
    · rintro ⟨y, hy, h⟩
      obtain ⟨ys', hys, he⟩ := bind_eq_ok.mp h
      exact ⟨y, ys', hy, ih.mp hys, (Except.ok.inj he).symm⟩
    · rintro ⟨y, ys', hy, hys, rfl⟩
      exact ⟨y, hy, bind_eq_ok.mpr ⟨ys', ih.mpr hys, rfl⟩⟩

theorem exists_of_mapM_error {f : α → Except ε β} {xs : List α} {e : ε}
    (h : xs.mapM f = .error e) : ∃ x ∈ xs, f x = .error e := by
  induction xs with
  | nil => cases h
  | cons x xs ih =>
    rw [List.mapM_cons] at h
    rcases bind_eq_error.mp h with hx | ⟨y, _, h⟩
    · exact ⟨x, by simp, hx⟩
    · rcases bind_eq_error.mp h with hxs | ⟨ys, _, h⟩
      · obtain ⟨z, hz, he⟩ := ih hxs
        exact ⟨z, by simp [hz], he⟩
      · cases h

/-- Steps that each either give a result or fail in one and the same way fail together in that
way, whichever of them is the first to fail. -/
theorem mapM_eq_ite {f : α → Except ε β} {e : ε} {p : β → Prop} [DecidablePred p] {xs : List α}
    {ys : List β} (h : List.Forall₂ (fun x y => f x = if p y then .ok y else .error e) xs ys) :
    xs.mapM f = if ∀ y ∈ ys, p y then .ok ys else .error e := by
  induction h with
  | nil => simp [pure, Except.pure]
  | @cons x y xs ys hx _ ih =>
    rw [List.mapM_cons, hx, ih]
    simp only [List.forall_mem_cons]
    by_cases hy : p y
    · by_cases hys : ∀ z ∈ ys, p z
      · rw [if_pos hy, if_pos hys, if_pos ⟨hy, hys⟩]
        rfl
      · rw [if_pos hy, if_neg hys, if_neg fun h => hys h.2]
        rfl
    · have hall : ¬(p y ∧ ∀ z ∈ ys, p z) := fun h => hy h.1
      rw [if_neg hy, if_neg hall]
      rfl

theorem mapM_map {γ : Type} (f : α → Except ε β) (g : β → γ) (xs : List α) :
    xs.mapM (fun x => (f x).map g) = (xs.mapM f).map (List.map g) := by
  induction xs with
  | nil => rfl
  | cons x xs ih =>
    rw [List.mapM_cons, List.mapM_cons, ih]
    cases f x with
    | error e => rfl
    | ok y => cases xs.mapM f <;> rfl

end BooleanSearch

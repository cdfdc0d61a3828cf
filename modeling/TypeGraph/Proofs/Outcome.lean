import Mathlib.Data.List.Forall2
import TypeGraph.Record.Load

/-!
Running requests step by step. Main statements: a sequence of requests succeeds exactly if each of
them does (`run_bind_eq_ok`), and what every part keeps the whole keeps (`Keeps.bind`).
-/

namespace TypeGraph

variable {α β ε σ : Type}

/-! ### Questions -/

theorem ok_bind (a : α) (f : α → Except ε β) : (.ok a >>= f) = f a := rfl

theorem bind_of_error {x : Except ε α} {e : ε} (h : x = .error e) (f : α → Except ε β) :
    x >>= f = .error e := by
  rw [h]
  rfl

theorem bind_eq_ok {x : Except ε α} {f : α → Except ε β} {b : β} :
    x >>= f = .ok b ↔ ∃ a, x = .ok a ∧ f a = .ok b := by
  cases x with
  | ok a =>
      refine ⟨fun h => ⟨a, rfl, h⟩, ?_⟩
      rintro ⟨a', ha, h⟩
      cases ha
      exact h
  | error e =>
      constructor
      · intro h
        cases h
      · rintro ⟨a', ha, _⟩
        cases ha

theorem bind_eq_error {x : Except ε α} {f : α → Except ε β} {e : ε} :
    x >>= f = .error e ↔ x = .error e ∨ ∃ a, x = .ok a ∧ f a = .error e := by
  cases x <;> simp [bind, Except.bind]

@[simp] theorem pure_eq_ok {a b : α} : (pure a : Except ε α) = .ok b ↔ a = b := by
  constructor
  · intro h
    cases h
    rfl
  · rintro rfl
    rfl

@[simp] theorem throw_ne_ok {e : ε} {b : α} : (throw e : Except ε α) ≠ .ok b := by
  intro h
  cases h

@[simp] theorem orFail_eq_ok {failure : Failure} {x : Option α} {a : α} :
    orFail failure x = .ok a ↔ x = some a := by
  cases x <;> simp [orFail]

theorem orFail_eq_error {failure failure' : Failure} {x : Option α} :
    orFail failure x = .error failure' ↔ x = none ∧ failure = failure' := by
  cases x <;> simp [orFail]

/-- A list of questions succeeds exactly if each of them does. -/
theorem mapM_eq_ok {f : α → Except ε β} {as : List α} {bs : List β} :
    as.mapM f = .ok bs ↔ List.Forall₂ (fun a b => f a = .ok b) as bs := by
  induction as generalizing bs with
  | nil => rw [List.mapM_nil, pure_eq_ok, List.forall₂_nil_left_iff, eq_comm]
  | cons a as ih =>
      rw [List.mapM_cons, bind_eq_ok]
      constructor
      · rintro ⟨b, hb, h⟩
        obtain ⟨bs', hbs, h⟩ := bind_eq_ok.mp h
        rw [← pure_eq_ok.mp h]
        exact .cons hb (ih.mp hbs)
      · rintro (_ | ⟨hb, hbs⟩)
        exact ⟨_, hb, bind_eq_ok.mpr ⟨_, ih.mpr hbs, rfl⟩⟩

/-! ### Requests -/

theorem run_bind (m : EStateM ε σ α) (f : α → EStateM ε σ β) (s : σ) :
    (m >>= f) s = match m s with
      | .ok a s => f a s
      | .error e s => .error e s := by
  cases h : m s <;> simp [bind, EStateM.bind, h]

/-- A sequence succeeds exactly if each part does. -/
theorem run_bind_eq_ok {m : EStateM ε σ α} {f : α → EStateM ε σ β} {s s' : σ} {b : β} :
    (m >>= f) s = .ok b s' ↔ ∃ a s₁, m s = .ok a s₁ ∧ f a s₁ = .ok b s' := by
  rw [run_bind]
  cases m s with
  | ok a s₁ =>
      refine ⟨fun h => ⟨a, s₁, rfl, h⟩, ?_⟩
      rintro ⟨a', s', h, h'⟩
      cases h
      exact h'
  | error e s₁ => simp

theorem run_bind_of_ok {m : EStateM ε σ α} {f : α → EStateM ε σ β} {s s₁ : σ} {a : α}
    (h : m s = .ok a s₁) : (m >>= f) s = f a s₁ := by
  rw [run_bind, h]

@[simp] theorem run_pure (a : α) (s : σ) : (pure a : EStateM ε σ α) s = .ok a s := rfl

@[simp] theorem run_throw (e : ε) (s : σ) : (throw e : EStateM ε σ α) s = .error e s := rfl

@[simp] theorem run_get (s : σ) : (get : EStateM ε σ σ) s = .ok s s := rfl

@[simp] theorem run_set (s s' : σ) : (set s' : EStateM ε σ PUnit) s = .ok ⟨⟩ s' := rfl

@[simp] theorem run_modify (f : σ → σ) (s : σ) :
    (modify f : EStateM ε σ Unit) s = .ok () (f s) := rfl

/-- The state that a request leaves, whether it succeeds or fails. -/
def after (m : EStateM ε σ α) (s : σ) : σ :=
  match m s with
  | .ok _ s => s
  | .error _ s => s

theorem after_of_ok {m : EStateM ε σ α} {s s' : σ} {a : α} (h : m s = .ok a s') :
    after m s = s' := by
  simp only [after, h]

/-- What a request answers, or why it fails. -/
def outcome (m : EStateM ε σ α) (s : σ) : Except ε α :=
  match m s with
  | .ok a _ => .ok a
  | .error e _ => .error e

theorem outcome_eq_ok {m : EStateM ε σ α} {s : σ} {a : α} :
    outcome m s = .ok a ↔ m s = .ok a (after m s) := by
  unfold outcome after
  cases m s <;> simp

theorem outcome_eq_error {m : EStateM ε σ α} {s : σ} {e : ε} :
    outcome m s = .error e ↔ m s = .error e (after m s) := by
  unfold outcome after
  cases m s <;> simp

/-- Every run of a request takes its state along `R`. -/
def Keeps (R : σ → σ → Prop) (m : EStateM ε σ α) : Prop :=
  ∀ s, R s (after m s)

namespace Keeps

variable {R : σ → σ → Prop}

theorem of_ok {m : EStateM ε σ α} (hm : Keeps R m) {s s' : σ} {a : α} (h : m s = .ok a s') :
    R s s' :=
  after_of_ok h ▸ hm s

theorem pure [Std.Refl R] (a : α) : Keeps R (pure a : EStateM ε σ α) :=
  fun s => Std.Refl.refl s

/-- What every part keeps the whole keeps. -/
theorem bind [Trans R R R] {m : EStateM ε σ α} {f : α → EStateM ε σ β} (hm : Keeps R m)
    (hf : ∀ a, Keeps R (f a)) : Keeps R (m >>= f) := by
  intro s
  have h := hm s
  simp only [after, run_bind] at h ⊢
  cases hs : m s with
  | ok a s₁ =>
      rw [hs] at h
      exact Trans.trans h (hf a s₁)
  | error e s₁ =>
      rw [hs] at h
      exact h

theorem throw [Std.Refl R] (e : ε) : Keeps R (throw e : EStateM ε σ α) :=
  fun s => Std.Refl.refl s

end Keeps

end TypeGraph

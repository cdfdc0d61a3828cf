import TypeGraph.Proofs.Outcome

/-!
Requests on one kind of state that do what requests on another kind do. Main statement: requests
that are put together alike of matching ones match (`Refines.bind`, `Refines.forM`).
-/

namespace TypeGraph

variable {α β ε σ τ : Type}

/-- Both requests gave the same answer or failed for the same reason, and left related states. -/
inductive Agrees (R : σ → τ → Prop) : EStateM.Result ε σ α → EStateM.Result ε τ α → Prop where
  | ok {s : σ} {t : τ} (a : α) (related : R s t) : Agrees R (.ok a s) (.ok a t)
  | error {s : σ} {t : τ} (e : ε) (related : R s t) : Agrees R (.error e s) (.error e t)

/-- In related states, a request does what another one does, and leaves related states. -/
def Refines (R : σ → τ → Prop) (m : EStateM ε σ α) (m' : EStateM ε τ α) : Prop :=
  ∀ s t, R s t → Agrees R (m s) (m' t)

namespace Agrees

variable {R : σ → τ → Prop} {s : σ} {t : τ} {m : EStateM ε σ α} {m' : EStateM ε τ α}

/-- After requests that agree, more is known of the states than needs to hold at the end. -/
theorem bind {R' : σ → τ → Prop} {f : α → EStateM ε σ β} {f' : α → EStateM ε τ β}
    (h : Agrees R (m s) (m' t)) (hf : ∀ a s t, R s t → Agrees R' (f a s) (f' a t))
    (himp : ∀ s t, R s t → R' s t) : Agrees R' ((m >>= f) s) ((m' >>= f') t) := by
  rw [run_bind, run_bind]
  generalize m s = r, m' t = r' at h ⊢
  cases h with
  | ok a related => exact hf a _ _ related
  | error e related => exact .error e (himp _ _ related)

end Agrees

namespace Refines

variable {R : σ → τ → Prop}

/-- The answers are the same, and the states that are left are related. -/
theorem outcome_after {m : EStateM ε σ α} {m' : EStateM ε τ α} (hm : Refines R m m') {s : σ} {t : τ}
    (h : R s t) : outcome m s = outcome m' t ∧ R (after m s) (after m' t) := by
  have hrun := hm s t h
  unfold outcome after
  generalize m s = r, m' t = r' at hrun ⊢
  cases hrun with
  | ok a related => exact ⟨rfl, related⟩
  | error e related => exact ⟨rfl, related⟩

theorem pure (a : α) : Refines R (pure a : EStateM ε σ α) (pure a) := fun _ _ h => .ok a h

theorem throw (e : ε) : Refines R (throw e : EStateM ε σ α) (throw e) :=
  fun _ _ h => .error e h

theorem bind {m : EStateM ε σ α} {m' : EStateM ε τ α} {f : α → EStateM ε σ β}
    {f' : α → EStateM ε τ β} (hm : Refines R m m') (hf : ∀ a, Refines R (f a) (f' a)) :
    Refines R (m >>= f) (m' >>= f') :=
  fun s t h => (hm s t h).bind hf fun _ _ => id

/-- What is known of the second state, and kept, may be used on the way. -/
theorem keeping {P : τ → Prop} {m : EStateM ε σ α} {m' : EStateM ε τ α} (hm : Refines R m m')
    (hp : ∀ t, P t → P (TypeGraph.after m' t)) : Refines (fun s t => R s t ∧ P t) m m' := by
  rintro s t ⟨h, ht⟩
  have hrun := hm s t h
  have hafter := hp t ht
  unfold TypeGraph.after at hafter
  generalize m s = r, m' t = r' at hrun hafter ⊢
  cases hrun with
  | ok a related => exact .ok a ⟨related, hafter⟩
  | error e related => exact .error e ⟨related, hafter⟩

theorem mapM {f : α → EStateM ε σ β} {f' : α → EStateM ε τ β} (h : ∀ a, Refines R (f a) (f' a))
    (as : List α) : Refines R (as.mapM f) (as.mapM f') := by
  induction as with
  | nil => exact pure []
  | cons a as ih =>
      rw [List.mapM_cons, List.mapM_cons]
      exact (h a).bind fun _ => ih.bind fun _ => pure _

theorem forM {f : α → EStateM ε σ PUnit} {f' : α → EStateM ε τ PUnit}
    (h : ∀ a, Refines R (f a) (f' a)) (as : List α) : Refines R (as.forM f) (as.forM f') := by
  induction as with
  | nil => exact pure _
  | cons a as ih => exact (h a).bind fun _ => ih

theorem allM {f : α → EStateM ε σ Bool} {f' : α → EStateM ε τ Bool} {as : List α}
    (h : ∀ a ∈ as, Refines R (f a) (f' a)) : Refines R (as.allM f) (as.allM f') := by
  induction as with
  | nil => exact pure true
  | cons a as ih =>
      rw [List.allM, List.allM]
      refine (h a List.mem_cons_self).bind fun holds => ?_
      cases holds with
      | true => exact ih fun b hb => h b (List.mem_cons_of_mem a hb)
      | false => exact pure false

end Refines

end TypeGraph

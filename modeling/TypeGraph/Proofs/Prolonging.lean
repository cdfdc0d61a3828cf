import TypeGraph.Proofs.Composing

/-!
Readers and what they have not looked at. Main statement: unless a reader ran out of items, it does
the same however many items follow, and leaves these behind (`Load.anticipates_type`,
`Load.anticipates_tables`). So what a reader takes to the end can be cut off nowhere: on a part of
it the reader runs out (`Load.Anticipates.runsOut`).
-/

namespace TypeGraph

variable {α β : Type}

namespace Load

open ItemReader

/-! ### Lists that go on -/

/-- Reading failed because no item was left. -/
def RunsOut (result : EStateM.Result Failure Loading α) : Prop :=
  ∃ expected next, result = .error (.archive (.unexpectedEnd expected)) next

/-- The same result, with more items behind those that are left. -/
def followedBy (more : List Item) :
    EStateM.Result Failure Loading α → EStateM.Result Failure Loading α
  | .ok a next => .ok a { next with items := next.items ++ more }
  | .error failure next => .error failure { next with items := next.items ++ more }

/-- What one reader does to a list, another one does to a longer list, unless the first one runs out
of items. -/
def Anticipates (m m' : Load α) : Prop :=
  ∀ store items more, RunsOut (m ⟨store, items⟩) ∨
    m' ⟨store, items ++ more⟩ = followedBy more (m ⟨store, items⟩)

theorem anticipates_pure (a : α) : Anticipates (pure a) (pure a) := fun _ _ _ => Or.inr rfl

theorem anticipates_throw (failure : Failure) :
    Anticipates (throw failure : Load α) (throw failure) := fun _ _ _ => Or.inr rfl

theorem anticipates_build (request : Build α) : Anticipates (build request) (build request) := by
  intro store items more
  right
  simp only [build]
  cases request store <;> rfl

theorem anticipates_read {reader : ItemReader α} (h : reader.TakesOne) :
    Anticipates (read reader) (read reader) := by
  intro store items more
  cases items with
  | nil =>
      obtain ⟨expected, hnil⟩ := h.nil
      exact Or.inl ⟨expected, ⟨store, []⟩, by simp only [read, hnil]⟩
  | cons item items =>
      right
      rcases h.cons item with ⟨a, ha⟩ | ⟨error, herror⟩
      · simp only [read, List.cons_append, ha, followedBy]
      · simp only [read, List.cons_append, herror, followedBy]

namespace Anticipates

theorem bind {m m' : Load α} {f f' : α → Load β} (hm : Anticipates m m')
    (hf : ∀ a, Anticipates (f a) (f' a)) : Anticipates (m >>= f) (m' >>= f') := by
  intro store items more
  rw [run_bind, run_bind]
  rcases hm store items more with ⟨expected, next, hout⟩ | heq
  · exact Or.inl ⟨expected, next, by rw [hout]⟩
  · rw [heq]
    cases m ⟨store, items⟩ with
    | ok a next => exact hf a next.store next.items more
    | error failure next => exact Or.inr rfl

/-- A reader that would go on alike takes all of a list only if it runs out on any part of it. -/
theorem runsOut {m : Load α} (h : Anticipates m m) {store new : Store} {front written : List Item}
    {a : α} (hall : m ⟨store, written⟩ = .ok a ⟨new, []⟩) (hfront : front <+: written)
    (hne : front ≠ written) : RunsOut (m ⟨store, front⟩) := by
  obtain ⟨back, rfl⟩ := hfront
  have hback : back ≠ [] := by
    rintro rfl
    exact hne (List.append_nil front).symm
  rcases h store front back with hout | heq
  · exact hout
  · -- Else the items that were cut off would be left in the end.
    rw [hall] at heq
    cases hrun : m ⟨store, front⟩ with
    | ok b next =>
        rw [hrun] at heq
        obtain ⟨_, hleft⟩ := EStateM.Result.ok.inj heq
        have hnil := congrArg Loading.items hleft
        exact absurd (List.append_eq_nil_iff.mp hnil.symm).2 hback
    | error failure next =>
        rw [hrun] at heq
        cases heq

end Anticipates

/-! ### Records and tables -/

/-- No request to the store depends on what items follow. -/
theorem composes_anticipates : Composes Anticipates where
  pure := anticipates_pure
  throw := anticipates_throw
  bind := Anticipates.bind
  read := anticipates_read
  build _ := anticipates_build _

/-- More depth changes nothing where the depth sufficed. Where it did not, it was as if no items
were left. -/
theorem anticipates_typeUpTo {depth depth' : Nat} (h : depth ≤ depth') :
    Anticipates (typeUpTo depth) (typeUpTo depth') := by
  induction depth generalizing depth' with
  | zero => exact fun _ _ _ => Or.inl ⟨_, _, rfl⟩
  | succ depth ih =>
      obtain ⟨more, rfl⟩ := Nat.exists_eq_add_of_le' h
      exact composes_anticipates.record (ih (Nat.le_add_left depth more))

theorem anticipates_type : Anticipates type type := fun store items more =>
  have hdepth : items.length ≤ (items ++ more).length := by
    rw [List.length_append]
    exact Nat.le_add_right _ _
  anticipates_typeUpTo hdepth store items more

theorem anticipates_tables : Anticipates tables tables :=
  composes_anticipates.tables anticipates_type

end Load

end TypeGraph

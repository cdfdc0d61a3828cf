/-!
Doing the same a number of times.
-/

namespace TypeGraph

/-- Does `step` the given number of times, or up to its first failure, and lists the results. -/
def times {m : Type → Type} [Monad m] {α : Type} (step : m α) : Nat → m (List α)
  | 0 => return []
  | n + 1 => do
      let first ← step
      return first :: (← times step n)

end TypeGraph

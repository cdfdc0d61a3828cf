/-!
The handles that a store gives out: numbers of its types, parameter lists, keywords and paths.
-/

namespace TypeGraph

/-- Number of a type. Equal numbers denote the same type. -/
structure TypeId where
  index : Nat
deriving DecidableEq, Repr

/-- Number of a parameter list. -/
structure ParamSetId where
  index : Nat
deriving DecidableEq, Repr

/-- Number of a text. Texts are numbered in the order in which they are first met. -/
structure Keyword where
  index : Nat
deriving DecidableEq, Repr

/-- Number of a path of keywords. -/
structure PathId where
  index : Nat
deriving DecidableEq, Repr

/-- The path without segments. -/
def PathId.root : PathId := ⟨0⟩

/-- Number of a value that is only known when the program runs. -/
structure ExprId where
  index : UInt32
deriving DecidableEq, Repr

end TypeGraph

import TypeGraph.Store.View

/-!
A type written out in full: parts in place of numbers, texts in place of paths. A tree means the
same in every store, so whatever is printed for a type is a function of its tree. Main statement:
what holds of a tree whenever it holds of its parts holds of every tree (`Tree.induct`).
-/

namespace TypeGraph

/-- The texts of a path, or why they are not known. -/
abbrev PathName := Except Failure (List String)

/-- A type written out in full. -/
inductive Tree where
  | mk (shape : Shape Tree (Params Tree) PathName) (qual : Qual PathName)

/-- A shape with its parts written out in full. -/
abbrev TreeShape := Shape Tree (Params Tree) PathName

namespace TreeShape

/-- The types that a shape is directly built from. -/
def parts : TreeShape → List Tree
  | .builtin _ | .classType _ _ | .enumType _ => []
  | .array base _ | .bitfield base _ _ | .pointer base | .leftRef base | .rightRef base => [base]
  | .function ret params _ => ret :: params.types
  | .memberFunction owner ret params _ => owner :: ret :: params.types
  | .memberPointer owner base => [owner, base]
  | .tuple params => params.types

end TreeShape

namespace Tree

def shape : Tree → TreeShape
  | ⟨shape, _⟩ => shape

def qual : Tree → Qual PathName
  | ⟨_, qual⟩ => qual

/-- The types that a type is directly built from. -/
def parts (tree : Tree) : List Tree := TreeShape.parts tree.shape

/-- Induction over the parts of a type. -/
theorem induct {P : Tree → Prop} (h : ∀ tree : Tree, (∀ part ∈ tree.parts, P part) → P tree)
    (tree : Tree) : P tree := by
  refine Tree.rec (motive_1 := P) (motive_2 := fun shape => ∀ part ∈ TreeShape.parts shape, P part)
    (motive_3 := fun params => ∀ part ∈ params.types, P part)
    (motive_4 := fun list => ∀ part ∈ list, P part) ?_ ?_ ?_ ?_ ?_ ?_ ?_ ?_ ?_ ?_ ?_ ?_ ?_ ?_ ?_ ?_
    tree
  all_goals try simp +contextual [TreeShape.parts]
  intro shape qual hs
  exact h ⟨shape, qual⟩ hs

end Tree

namespace Store

/-- The texts of a path. -/
def pathName (store : Store) (path : PathId) : PathName := store.names.strings path

/-- A type of the store written out in full. -/
def tree (store : Store) (type : TypeId) : Except Failure Tree := do
  let qual ← store.qual type
  let shape ← (← store.view type).mapM (fun part => store.tree part.type)
    (fun params => params.mapM fun part => store.tree part.type) store.pathName
  return ⟨shape, qual.map store.pathName⟩
termination_by type.index
decreasing_by all_goals exact Below.older _

end Store

end TypeGraph

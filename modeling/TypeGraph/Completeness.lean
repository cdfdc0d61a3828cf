import TypeGraph.Store.Build
import TypeGraph.Store.View

/-!
Completeness: whether a type can have a size now. There are two forms of the same question, one
that only looks and one that notes in the store which tuples were found complete, so that they are
not searched again.
-/

namespace TypeGraph

/-- Whether a builtin type is complete. -/
def Builtin.isComplete : Builtin → Bool
  | .void | .label => false
  | _ => true

/-- Whether a type can have a size now. -/
def Store.isComplete (store : Store) (type : TypeId) : Except Failure Bool := do
  match ← store.view type with
  | .builtin builtin => return builtin.isComplete
  | .array base extent =>
      if extent.isComplete then store.isComplete base.type else return false
  | .bitfield base _ _ => store.isComplete base.type
  | .pointer _ | .leftRef _ | .rightRef _ | .memberPointer _ _ => return true
  | .function .. | .memberFunction .. => return false
  | .tuple parts => parts.types.allM fun part => store.isComplete part.type
  | .classType .. => return (store.classBody? (← store.unqualified type)).isSome
  | .enumType _ => return (store.enumBody? (← store.unqualified type)).isSome
termination_by type.index
decreasing_by all_goals exact Below.older _

/-- Notes that a tuple is complete. -/
def Build.settle (type : TypeId) : Build Unit :=
  modify fun store => { store with settled := type :: store.settled }

/-- Whether a type can have a size now. A tuple found complete is remembered. -/
def Build.isComplete (type : TypeId) : Build Bool := do
  if type ∈ (← get).settled then return true
  match ← query (·.view type) with
  | .builtin builtin => return builtin.isComplete
  | .array base extent =>
      if extent.isComplete then Build.isComplete base.type else return false
  | .bitfield base _ _ => Build.isComplete base.type
  | .pointer _ | .leftRef _ | .rightRef _ | .memberPointer _ _ => return true
  | .function .. | .memberFunction .. => return false
  | .tuple parts =>
      let complete ← parts.types.allM fun part => Build.isComplete part.type
      if complete then settle type
      return complete
  | .classType .. =>
      query fun store => do return (store.classBody? (← store.unqualified type)).isSome
  | .enumType _ =>
      query fun store => do return (store.enumBody? (← store.unqualified type)).isSome
termination_by type.index
decreasing_by all_goals exact Below.older _

/-- Whether a variable-length array occurs in a type, also behind pointers and in the parameters
of functions. -/
def Store.isVariablyModified (store : Store) (type : TypeId) : Except Failure Bool := do
  match ← store.view type with
  | .array base extent =>
      if extent.isVariable then return true else store.isVariablyModified base.type
  | .pointer base | .leftRef base | .rightRef base | .bitfield base _ _
  | .memberPointer _ base => store.isVariablyModified base.type
  | .function ret params _ | .memberFunction _ ret params _ =>
      if ← store.isVariablyModified ret.type then return true
      else params.types.anyM fun param => store.isVariablyModified param.type
  | .builtin _ | .tuple _ | .classType .. | .enumType _ => return false
termination_by type.index
decreasing_by all_goals exact Below.older _

end TypeGraph

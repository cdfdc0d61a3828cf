import TypeGraph.Store.Basic

/-!
A type seen together with the types it is built from. Those are older than it is, which is what
every recursion over the store rests on.
-/

namespace TypeGraph

/-- A type older than `whole`. -/
structure Below (whole : TypeId) where
  type : TypeId
  older : type.index < whole.index
deriving DecidableEq

/-- What a type is built from, with its parameter lists spelled out. -/
abbrev View (type : TypeId) := Shape (Below type) (Params (Below type)) PathId

/-- A reference made by `type`, which must lead to an older type. -/
def TypeId.part (type part : TypeId) : Except Failure (Below type) :=
  if h : part.index < type.index then .ok ⟨part, h⟩
  else .error (.fault (.unknownType part))

namespace Store

/-- The shape of a type with its parts spelled out. -/
def view (store : Store) (type : TypeId) : Except Failure (View type) := do
  (← store.shape type).mapM type.part
    (fun set => do (← store.paramSet set).mapM type.part) id

/-- The type inside any number of bit-fields. -/
def withoutBitfield (store : Store) (type : TypeId) : Except Failure TypeId := do
  match ← store.view type with
  | .bitfield base _ _ => store.withoutBitfield base.type
  | _ => return type
termination_by type.index
decreasing_by exact base.older

/-- Number of array dimensions around the innermost element. -/
def arrayRank (store : Store) (type : TypeId) : Except Failure Nat := do
  match ← store.view type with
  | .array base _ => return (← store.arrayRank base.type) + 1
  | _ => return 0
termination_by type.index
decreasing_by exact base.older

/-- The innermost type that is no array. -/
def arrayElement (store : Store) (type : TypeId) : Except Failure TypeId := do
  match ← store.view type with
  | .array base _ => store.arrayElement base.type
  | _ => return type
termination_by type.index
decreasing_by exact base.older

/-- The builtin type that a type of the store is, whatever its qualifiers. -/
def builtinOf? (store : Store) (type : TypeId) : Except Failure (Option Builtin) := do
  return (← store.shape type).builtin?

/-- The builtin type behind bit-fields and finished enums. -/
def builtinBehind? (store : Store) (type : TypeId) : Except Failure (Option Builtin) := do
  let type ← store.withoutBitfield type
  match ← store.shape type with
  | .builtin builtin => return some builtin
  | .enumType _ =>
      match store.enumBody? (← store.unqualified type) with
      | some body => store.builtinOf? body.base
      | none => return none
  | _ => return none

end Store

end TypeGraph

import TypeGraph.Archive.Times
import TypeGraph.Record.Save
import TypeGraph.Store.Build

/-!
Reading records. Each type is asked for in the usual way, so a record of a type that is in the
store gives that type. What was taken and entered before a failure stays taken and entered.
-/

namespace TypeGraph

/-- A store, and the items that are still to be read into it. -/
structure Loading where
  store : Store
  items : List Item

/-- Reads items into a store. -/
abbrev Load := EStateM Failure Loading

namespace Load

/-- Takes items. -/
def read {α : Type} (reader : ItemReader α) : Load α := fun loading =>
  match reader loading.items with
  | .ok a items => .ok a { loading with items }
  | .error error items => .error (.archive error) { loading with items }

/-- Asks the store for something. -/
def build {α : Type} (request : Build α) : Load α := fun loading =>
  match request loading.store with
  | .ok a store => .ok a { loading with store }
  | .error failure store => .error failure { loading with store }

/-- A text, entered as a keyword. -/
def keyword : Load Keyword := do
  build (Build.intern (← read .str))

/-- A path. -/
def path : Load PathId := do
  build (Build.path (← read .key))

/-- An address space. Placeholders are refused. -/
def space : Load (Space PathId) := do
  let storage ← read (.tagged (α := Storage))
  if storage.isPlaceholder then throw (.type (.internalSpace storage))
  if storage.isDeclarable then return .declared storage (← path)
  else return .ofStorage storage

def qual : Load (Qual PathId) := do
  let space ← space
  let isAtomic ← read .bool
  let isConst ← read .bool
  let isRestrict ← read .bool
  let isVolatile ← read .bool
  return { space, isAtomic, isConst, isRestrict, isVolatile }

/-- A parameter list, `type` reading the types in it. -/
def params (type : Load TypeId) : Load ParamSetId := do
  let length ← read .count
  let variadic ← read .bool
  let types ← times type length.toNat
  build (Build.params types variadic)

/-- What follows the tag of a record up to the qualifiers, `type` reading the types in it. -/
def fields (type : Load TypeId) : ShapeTag → Load TypeId
  | .array => do
      let count ← read .count
      build (Build.array (← type) (.fixed count))
  | .arrayIncomplete => do build (Build.array (← type) .incomplete)
  | .arrayVariable => do
      let expr ← read .word
      build (Build.array (← type) (.variable ⟨expr⟩))
  | .arrayUnspecified => do build (Build.array (← type) .unspecified)
  | .bitfield => do
      let bits ← read .word
      let offset ← read .word
      build (Build.bitfield (← type) bits offset)
  | .pointer => do build (Build.pointer (← type))
  | .leftRef => do build (Build.leftRef (← type))
  | .rightRef => do build (Build.rightRef (← type))
  | .function => do
      let ret ← type
      let params ← params type
      build (Build.function ret params (← read .tagged))
  | .memberFunction => do
      let owner ← type
      let ret ← type
      let params ← params type
      build (Build.memberFunction owner ret params (← read .tagged))
  | .memberPointer => do
      let owner ← type
      build (Build.memberPointer owner (← type))
  | .tuple => do build (Build.tupleOf (← params type))
  | .struct => do build (Build.classType (← path) true)
  | .union => do build (Build.classType (← path) false)
  | .enum => do build (Build.enumType (← path))

/-- What follows the tag of a record up to the qualifiers, `type` reading the types in it. The tag
of a builtin type is followed by nothing. -/
def unqualified (type : Load TypeId) (tag : String) : Load TypeId :=
  match Tagged.ofTag? tag with
  | some shape => fields type shape
  | none =>
      match Tagged.ofTag? tag with
      | some builtin => return TypeId.builtin builtin
      | none => throw (.archive (.unknownTag tag))

/-- A record with records nested in it at most `depth` deep, itself counted. -/
def typeUpTo : Nat → Load TypeId
  | 0 => throw (.archive (.unexpectedEnd "tag"))
  | depth + 1 => do
      let tag ← read .tag
      let plain ← unqualified (typeUpTo depth) tag
      build (Build.qualify plain (← qual))

/-- The type whose record comes next. Every nested record takes an item for its tag, so there are no
more of them than items. -/
def type : Load TypeId := do
  typeUpTo (← get).items.length

end Load

end TypeGraph

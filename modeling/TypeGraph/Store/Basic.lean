import TypeGraph.Aggregate
import TypeGraph.Names
import TypeGraph.Shape

/-!
The store of types. A type is its shape and its qualifiers, and has one number; so has a list of
parameters. Finished classes and enums are kept in the order in which they were completed.
-/

namespace TypeGraph

/-- A parameter list of numbered types. -/
abbrev ParamSet := Params TypeId

/-- A type: what it is built from, by number, and its qualifiers. -/
structure Node where
  shape : Shape TypeId ParamSetId PathId
  qual : Qual PathId
deriving DecidableEq, Repr

/-- The type of a shape without qualifiers. -/
def Node.plain (shape : Shape TypeId ParamSetId PathId) : Node := ⟨shape, Qual.none⟩

/-- Everything known about types, and the machine they are laid out for. -/
structure Store where
  names : Names
  target : Target
  nodes : Table Node
  paramSets : Table ParamSet
  /-- The bodies of finished classes and enums, in the order of completion. -/
  definitions : List (TypeId × Definition)
  /-- Tuples that were found complete by an earlier query. -/
  settled : List TypeId

/-- Number of a builtin type, the same in every store. -/
def TypeId.builtin (type : Builtin) : TypeId := ⟨type.slot⟩

/-- Whether a number is that of a builtin type. -/
def TypeId.isBuiltin (type : TypeId) : Bool := type.index < Builtin.all.length

/-- Number of the closed parameter list without types, the same in every store. -/
def ParamSetId.empty : ParamSetId := ⟨0⟩

namespace Store

/-- The builtin types in their order, without qualifiers. -/
def builtinNodes : Table Node where
  entries := Builtin.all.map fun type => Node.plain (.builtin type)
  nodup := by decide +kernel

/-- The store that holds the builtin types and the empty parameter list. -/
def new (target : Target) : Store where
  names := Names.empty
  target := target
  nodes := builtinNodes
  paramSets := Table.singleton Params.empty
  definitions := []
  settled := []

/-- Lays types out for another machine from now on. -/
def withTarget (store : Store) (target : Target) : Store := { store with target }

/-! ### Types by number -/

def node? (store : Store) (type : TypeId) : Option Node := store.nodes.get? type.index

def node (store : Store) (type : TypeId) : Except Failure Node :=
  orFail (.fault (.unknownType type)) (store.node? type)

def shape (store : Store) (type : TypeId) : Except Failure (Shape TypeId ParamSetId PathId) := do
  return (← store.node type).shape

def qual (store : Store) (type : TypeId) : Except Failure (Qual PathId) := do
  return (← store.node type).qual

def kind (store : Store) (type : TypeId) : Except Failure Kind := do
  return (← store.shape type).kind

/-- Number of the type with the given shape and qualifiers. -/
def idOf (store : Store) (node : Node) : TypeId := ⟨store.nodes.indexOf node⟩

/-- The type without its qualifiers. -/
def unqualified (store : Store) (type : TypeId) : Except Failure TypeId := do
  return store.idOf (.plain (← store.shape type))

/-- All types, oldest first. -/
def types (store : Store) : List TypeId := (List.range store.nodes.size).map TypeId.mk

/-- The types that differ from `type` in their qualifiers at most: the one without qualifiers, then
the others, oldest first. -/
def variants (store : Store) (type : TypeId) : Except Failure (List TypeId) := do
  let shape ← store.shape type
  let qualified := store.types.filter fun other =>
    match store.node? other with
    | some node => node.shape == shape && !node.qual.isNone
    | none => false
  return store.idOf (.plain shape) :: qualified

def paramSet (store : Store) (set : ParamSetId) : Except Failure ParamSet :=
  orFail (.fault (.unknownParamSet set)) (store.paramSets.get? set.index)

/-! ### Classes and enums -/

/-- The body of a finished class or enum, known by the number of its unqualified type. -/
def definition? (store : Store) (type : TypeId) : Option Definition :=
  store.definitions.lookup type

def classBody? (store : Store) (type : TypeId) : Option ClassBody :=
  match store.definition? type with
  | some (.ofClass body) => some body
  | _ => none

def enumBody? (store : Store) (type : TypeId) : Option EnumBody :=
  match store.definition? type with
  | some (.ofEnum body) => some body
  | _ => none

/-- The unqualified class that a type is, refused for other types. -/
def classOwner (store : Store) (type : TypeId) : Except Failure TypeId := do
  if (← store.kind type).isClass then store.unqualified type
  else throw (.type (.notClass type))

/-- The unqualified enum that a type is, refused for other types. -/
def enumOwner (store : Store) (type : TypeId) : Except Failure TypeId := do
  if (← store.kind type) = .enum then store.unqualified type
  else throw (.type (.notEnum type))

/-- The body of a class, refused while it is open. -/
def classBody (store : Store) (type : TypeId) : Except Failure ClassBody := do
  orFail (.type (.incomplete type)) (store.classBody? (← store.classOwner type))

/-- The body of an enum, refused while it is open. -/
def enumBody (store : Store) (type : TypeId) : Except Failure EnumBody := do
  orFail (.type (.incomplete type)) (store.enumBody? (← store.enumOwner type))

/-- The data member that a class has under a name. -/
def dataMember (store : Store) (type : TypeId) (name : String) :
    Except Failure (Option (Member Keyword)) := do
  let body ← store.classBody type
  return (store.names.lookup? name).bind body.dataMember?

/-- The function member that a class has under a name. -/
def functionMember (store : Store) (type : TypeId) (name : String) :
    Except Failure (Option (Member Keyword)) := do
  let body ← store.classBody type
  return (store.names.lookup? name).bind body.functionMember?

/-- The value that an enum gives to a name. -/
def enumValue (store : Store) (type : TypeId) (name : String) :
    Except Failure (Option Int128) := do
  let body ← store.enumBody type
  return (store.names.lookup? name).bind body.value?

/-- Classes and enums that are still open. -/
def openAggregates (store : Store) : List TypeId :=
  store.types.filter fun type =>
    match store.node? type with
    | some node => node.qual.isNone && match node.shape with
      | .classType .. => (store.classBody? type).isNone
      | .enumType .. => (store.enumBody? type).isNone
      | _ => false
    | none => false

/-- The type that `type` is derived from. For an enum that is the type it is stored as, for a
saturating type the one without saturation, and for a complex or imaginary type its real part. -/
def baseType (store : Store) (type : TypeId) : Except Failure TypeId := do
  let shape ← store.shape type
  match shape.base? with
  | some base => return base
  | none =>
      match shape with
      | .builtin builtin =>
          orFail (.type (.noBaseType type)) (builtin.base?.map TypeId.builtin)
      | .enumType _ => return (← store.enumBody type).base
      | _ => throw (.type (.noBaseType type))

/-- Whether the parameter list of a function or tuple is open at the end. -/
def isVariadic (store : Store) (type : TypeId) : Except Failure Bool := do
  match (← store.shape type).params? with
  | some set => return (← store.paramSet set).variadic
  | none => return false

/-- The components of a tuple. -/
def tupleParts (store : Store) (type : TypeId) : Except Failure (Option (List TypeId)) := do
  match (← store.shape type).parts? with
  | some set => return some (← store.paramSet set).types
  | none => return none

end Store

end TypeGraph

import TypeGraph.Store.Build

/-!
Requests for types as data, one for each shape that may be asked for.
-/

namespace TypeGraph

/-- A request for an unqualified type. -/
inductive TypeRequest where
  | array (base : TypeId) (extent : Extent)
  | bitfield (base : TypeId) (bits offset : UInt32)
  | pointer (base : TypeId)
  | leftRef (base : TypeId)
  | rightRef (base : TypeId)
  | function (ret : TypeId) (params : ParamSetId) (conv : Convention)
  | memberFunction (owner ret : TypeId) (params : ParamSetId) (conv : Convention)
  | memberPointer (owner base : TypeId)
  | tuple (parts : List TypeId)
  | tupleOf (set : ParamSetId)
  | classType (name : PathId) (isStruct : Bool)
  | enumType (name : PathId)
deriving DecidableEq, Repr

namespace TypeRequest

/-- What is requested of a store. -/
def run : TypeRequest → Build TypeId
  | .array base extent => Build.array base extent
  | .bitfield base bits offset => Build.bitfield base bits offset
  | .pointer base => Build.pointer base
  | .leftRef base => Build.leftRef base
  | .rightRef base => Build.rightRef base
  | .function ret params conv => Build.function ret params conv
  | .memberFunction owner ret params conv => Build.memberFunction owner ret params conv
  | .memberPointer owner base => Build.memberPointer owner base
  | .tuple parts => Build.tuple parts
  | .tupleOf set => Build.tupleOf set
  | .classType name isStruct => Build.classType name isStruct
  | .enumType name => Build.enumType name

end TypeRequest

end TypeGraph

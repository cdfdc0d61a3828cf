import TypeGraph.Store.Basic

/-!
Requests that add to the store: names, parameter lists, types of every shape, qualified variants.
Asking for a type that is there already gives its number and adds nothing.
-/

namespace TypeGraph

/-- A request that may add to the store. What was added before a failure stays. -/
abbrev Build := EStateM Failure Store

namespace Build

/-- Asks the store without adding to it. -/
def query {α : Type} (question : Store → Except Failure α) : Build α := do
  match question (← get) with
  | .ok answer => return answer
  | .error failure => throw failure

/-- Adds names. -/
def naming {α : Type} (change : Names → α × Names) : Build α :=
  modifyGet fun store =>
    let (a, names) := change store.names
    (a, { store with names })

/-! ### Names -/

/-- The keyword of a text. -/
def intern (text : String) : Build Keyword := naming (·.intern text)

/-- The path one segment longer than `parent`. The keyword need not be known. -/
def extend (parent : PathId) (keyword : Keyword) : Build PathId := do
  let above ← query (·.names.segments parent)
  naming (·.enter (above ++ [keyword]))

/-- The path one segment longer than `parent`, the segment given as text. -/
def child (parent : PathId) (text : String) : Build PathId := do
  extend parent (← intern text)

/-- The path with the given texts from the root. -/
def path (texts : List String) : Build PathId := naming (·.path texts)

/-! ### Entering types -/

/-- The type with the given shape and qualifiers. -/
def enter (node : Node) : Build TypeId :=
  modifyGet fun store => (store.idOf node, { store with nodes := store.nodes.insert node })

/-- The unqualified type of a shape. -/
def plain (shape : Shape TypeId ParamSetId PathId) : Build TypeId := enter (.plain shape)

/-- The parameter list with the given contents. -/
def enterParams (set : ParamSet) : Build ParamSetId :=
  modifyGet fun store =>
    (⟨store.paramSets.indexOf set⟩, { store with paramSets := store.paramSets.insert set })

/-- Refuses a type that is not in the store. -/
def check (type : TypeId) : Build Unit := do
  let _ ← query (·.node type)

/-- Refuses a parameter list that is not in the store. -/
def checkParams (set : ParamSetId) : Build Unit := do
  let _ ← query (·.paramSet set)

/-! ### Types of every shape -/

def array (base : TypeId) (extent : Extent) : Build TypeId := do
  check base
  plain (.array base extent)

def bitfield (base : TypeId) (bits offset : UInt32) : Build TypeId := do
  check base
  plain (.bitfield base bits offset)

def pointer (base : TypeId) : Build TypeId := do
  check base
  plain (.pointer base)

def leftRef (base : TypeId) : Build TypeId := do
  check base
  plain (.leftRef base)

def rightRef (base : TypeId) : Build TypeId := do
  check base
  plain (.rightRef base)

/-- The parameter list of the given types. -/
def params (types : List TypeId) (variadic : Bool) : Build ParamSetId := do
  types.forM check
  enterParams ⟨types, variadic⟩

def function (ret : TypeId) (params : ParamSetId) (conv : Convention) : Build TypeId := do
  check ret
  checkParams params
  plain (.function ret params conv)

/-- A member function of a class, whose qualifiers are dropped. -/
def memberFunction (owner ret : TypeId) (params : ParamSetId) (conv : Convention) :
    Build TypeId := do
  let owner ← query (·.classOwner owner)
  check ret
  checkParams params
  plain (.memberFunction owner ret params conv)

/-- A pointer to a member of a class, whose qualifiers are dropped. -/
def memberPointer (owner base : TypeId) : Build TypeId := do
  let owner ← query (·.classOwner owner)
  check base
  plain (.memberPointer owner base)

def tuple (parts : List TypeId) : Build TypeId := do
  plain (.tuple (← params parts false))

/-- The tuple over a parameter list that is not open at the end. -/
def tupleOf (set : ParamSetId) : Build TypeId := do
  if (← query (·.paramSet set)).variadic then throw (.type .variadicTuple)
  plain (.tuple set)

def classType (name : PathId) (isStruct : Bool) : Build TypeId := plain (.classType name isStruct)

def enumType (name : PathId) : Build TypeId := plain (.enumType name)

/-! ### Qualifiers -/

/-- The type that differs from `type` in having exactly the given qualifiers. -/
def qualify (type : TypeId) (qual : Qual PathId) : Build TypeId := do
  enter ⟨← query (·.shape type), qual⟩

/-- The type with further qualifiers. -/
def addQual (type : TypeId) (qual : Qual PathId) : Build TypeId := do
  qualify type ((← query (·.qual type)).union qual)

end Build

end TypeGraph

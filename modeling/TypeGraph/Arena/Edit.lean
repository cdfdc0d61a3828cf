import TypeGraph.Arena.Basic
import TypeGraph.Completeness
import TypeGraph.Proofs.Outcome
import TypeGraph.Store.Complete
import TypeGraph.Store.Request

/-!
Requests that add to an arena. Each looks into the registries first, and adds to all of them what
they do not know yet.
-/

namespace TypeGraph

/-- A request that may add to the arena. What was added before a failure stays. -/
abbrev Edit := EStateM Failure Arena

namespace Edit

/-- Asks the arena without adding to it. -/
def query {α : Type} (question : Arena → Except Failure α) : Edit α := do
  match question (← get) with
  | .ok answer => return answer
  | .error failure => throw failure

def naming {α : Type} (request : Naming α) : Edit α := fun arena =>
  match request arena.interner with
  | .ok a interner => .ok a { arena with interner }
  | .error failure interner => .error failure { arena with interner }

/-! ### Entering types -/

/-- The unqualified type of a shape. -/
def plain (shape : Shape TypeId ParamSetId PathId) : Edit TypeId :=
  modifyGet fun arena =>
    match arena.byShape[shape]? with
    | some type => (type, arena)
    | none => (⟨arena.slots.size⟩, arena.pushPlain shape)

/-- The parameter list with the given contents. -/
def enterParams (set : ParamSet) : Edit ParamSetId :=
  modifyGet fun arena =>
    let (place, paramSets) := arena.paramSets.enter set
    (⟨place⟩, { arena with paramSets })

def check (type : TypeId) : Edit Unit := do
  let _ ← query (·.slot type)

def checkParams (set : ParamSetId) : Edit Unit := do
  let _ ← query (·.paramSet set)

def params (types : List TypeId) (variadic : Bool) : Edit ParamSetId := do
  types.forM check
  enterParams ⟨types, variadic⟩

/-- The unqualified type that is asked for, once what it names was found. -/
def enter : TypeRequest → Edit TypeId
  | .array base extent => do
      check base
      plain (.array base extent)
  | .bitfield base bits offset => do
      check base
      plain (.bitfield base bits offset)
  | .pointer base => do
      check base
      plain (.pointer base)
  | .leftRef base => do
      check base
      plain (.leftRef base)
  | .rightRef base => do
      check base
      plain (.rightRef base)
  | .function ret params conv => do
      check ret
      checkParams params
      plain (.function ret params conv)
  | .memberFunction owner ret params conv => do
      let owner ← query (·.classOwner owner)
      check ret
      checkParams params
      plain (.memberFunction owner ret params conv)
  | .memberPointer owner base => do
      let owner ← query (·.classOwner owner)
      check base
      plain (.memberPointer owner base)
  | .tuple parts => do plain (.tuple (← params parts false))
  | .tupleOf set => do
      if (← query (·.paramSet set)).variadic then throw (.type .variadicTuple)
      plain (.tuple set)
  | .classType name isStruct => plain (.classType name isStruct)
  | .enumType name => plain (.enumType name)

/-! ### Qualifiers -/

/-- Appends a variant that is new. -/
def enterVariant (plain : TypeId) (qual : Qual PathId) : Edit TypeId := do
  let shape ← query (·.shape plain)
  modifyGet fun arena => (⟨arena.slots.size⟩, arena.pushVariant plain ⟨shape, qual⟩)

/-- The type that differs from `type` in having exactly the given qualifiers. That is the type
itself, its unqualified form, a variant that was entered before, or a new one. -/
def qualify (type : TypeId) (qual : Qual PathId) : Edit TypeId := do
  let slot ← query (·.slot type)
  if slot.qual = qual then return type
  if qual.isNone then return slot.plain
  match (← get).byQual[(slot.plain, qual)]? with
  | some variant => return variant
  | none => enterVariant slot.plain qual

def addQual (type : TypeId) (qual : Qual PathId) : Edit TypeId := do
  qualify type ((← query (·.qual type)).union qual)

/-! ### Classes and enums -/

def nameMember (member : Member String) : Edit (Member Keyword) := do
  return member.rename (← naming (Naming.internOwned member.name))

def nameValue (entry : String × Int128) : Edit (Keyword × Int128) := do
  return (← naming (Naming.internOwned entry.1), entry.2)

def completeClass (draft : ClassDraft) : Edit TypeId := do
  if ((← get).classBody? draft.type).isSome then throw (.type (.alreadyComplete draft.type))
  let (size, align) ← query (·.contents.classLayout draft)
  let data ← draft.data.mapM nameMember
  let functions ← draft.functions.mapM nameMember
  match ← query (·.shape draft.type) with
  | .classType _ _ =>
      modify (·.addClass draft.type ⟨draft.bases, data, functions, size, align⟩)
      return draft.type
  | _ => throw (.fault (.notAggregate draft.type))

/-- Completes an enum, whose values are stored as `base`. -/
def completeEnum (draft : EnumDraft) (base : TypeId) : Edit TypeId := do
  if ((← get).enumBody? draft.type).isSome then throw (.type (.alreadyComplete draft.type))
  let kind ← query (·.kind base)
  if !kind.isInteger || kind.isNamed then throw (.type (.invalidEnumBase draft.type base))
  let values ← draft.values.mapM nameValue
  match ← query (·.shape draft.type) with
  | .enumType _ =>
      modify (·.addEnum draft.type ⟨draft.flavor, values, base⟩)
      return draft.type
  | _ => throw (.fault (.notAggregate draft.type))

/-! ### Completeness -/

/-- Whether a type can have a size now. A tuple found complete is remembered. -/
def isComplete (type : TypeId) : Edit Bool := do
  if (← query (·.slot type)).complete then return true
  match ← query (·.view type) with
  | .builtin builtin => return builtin.isComplete
  | .array base extent => if extent.isComplete then isComplete base.type else return false
  | .bitfield base _ _ => isComplete base.type
  | .pointer _ | .leftRef _ | .rightRef _ | .memberPointer _ _ => return true
  | .function .. | .memberFunction .. => return false
  | .tuple parts =>
      let complete ← parts.types.allM fun part => isComplete part.type
      if complete then modify (·.settle type)
      return complete
  | .classType .. =>
      query fun arena => do return (arena.classBody? (← arena.unqualified type)).isSome
  | .enumType _ =>
      query fun arena => do return (arena.enumBody? (← arena.unqualified type)).isSome
termination_by type.index
decreasing_by all_goals exact Below.older _

end Edit

namespace Arena

/-- Nothing but the root of all paths. -/
def blank (target : Target) : Arena where
  interner := .empty
  target := target
  slots := #[]
  byShape := ∅
  byQual := ∅
  paramSets := .empty
  classes := []
  enums := []
  completed := []

/-- Enters the builtin types in their order, and the empty parameter list. -/
def start : Edit Unit := do
  Builtin.all.forM fun type => do
    let _ ← Edit.plain (.builtin type)
  let _ ← Edit.enterParams Params.empty

/-- The arena that holds the builtin types and the empty parameter list. -/
def new (target : Target) : Arena := after start (blank target)

/-- Lays types out for another machine from now on. -/
def withTarget (arena : Arena) (target : Target) : Arena := { arena with target }

end Arena

end TypeGraph

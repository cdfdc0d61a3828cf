import Mathlib.Data.List.Dedup
import TypeGraph.Arena.Interner
import TypeGraph.Store.View

/-!
Types as they are stored. Each type is linked to its unqualified form, which lists its variants, and
two maps find a type: one by its shape, one by its unqualified form and its qualifiers. The bodies
of classes and of enums are kept apart from the order in which they were completed.
-/

namespace TypeGraph

instance : Hashable Builtin := ⟨fun type => hash type.slot⟩

deriving instance Hashable for TypeId, ParamSetId, ExprId, Extent, Convention, Params, Shape,
  Storage, Space, Qual

/-- The table of what is in a list. -/
def Table.ofList {α : Type} [DecidableEq α] (as : List α) : Table α := ⟨as.dedup, as.nodup_dedup⟩

theorem Table.ofList_entries {α : Type} [DecidableEq α] (table : Table α) :
    ofList table.entries = table := by
  unfold ofList
  congr
  exact List.dedup_eq_self.mpr table.nodup

/-- A type as it is stored. -/
structure Slot where
  shape : Shape TypeId ParamSetId PathId
  qual : Qual PathId
  /-- The type without its qualifiers. -/
  plain : TypeId
  /-- The variants with qualifiers, oldest first. Only a type without qualifiers lists any. -/
  variants : List TypeId
  /-- Notes that a tuple was found complete. -/
  complete : Bool

namespace Slot

/-- The type that is stored. -/
def node (slot : Slot) : Node := ⟨slot.shape, slot.qual⟩

def addVariant (slot : Slot) (variant : TypeId) : Slot :=
  { slot with variants := slot.variants ++ [variant] }

end Slot

/-- Everything known about types as it is stored, and the machine they are laid out for. -/
structure Arena where
  interner : Interner
  target : Target
  slots : Array Slot
  byShape : Std.HashMap (Shape TypeId ParamSetId PathId) TypeId
  byQual : Std.HashMap (TypeId × Qual PathId) TypeId
  paramSets : Registry ParamSet
  classes : List (TypeId × ClassBody)
  enums : List (TypeId × EnumBody)
  /-- Classes and enums in the order of completion. -/
  completed : List TypeId

namespace Arena

/-! ### Types by number -/

def slot? (arena : Arena) (type : TypeId) : Option Slot := arena.slots[type.index]?

def slot (arena : Arena) (type : TypeId) : Except Failure Slot :=
  orFail (.fault (.unknownType type)) (arena.slot? type)

def shape (arena : Arena) (type : TypeId) : Except Failure (Shape TypeId ParamSetId PathId) := do
  return (← arena.slot type).shape

def qual (arena : Arena) (type : TypeId) : Except Failure (Qual PathId) := do
  return (← arena.slot type).qual

def kind (arena : Arena) (type : TypeId) : Except Failure Kind := do
  return (← arena.shape type).kind

/-- The type without its qualifiers. -/
def unqualified (arena : Arena) (type : TypeId) : Except Failure TypeId := do
  return (← arena.slot type).plain

/-- The types that differ from `type` in their qualifiers at most: the one without qualifiers, then
those that it lists. -/
def variants (arena : Arena) (type : TypeId) : Except Failure (List TypeId) := do
  let plain ← arena.unqualified type
  return plain :: (← arena.slot plain).variants

def paramSet (arena : Arena) (set : ParamSetId) : Except Failure ParamSet :=
  orFail (.fault (.unknownParamSet set)) arena.paramSets.entries[set.index]?

/-- The shape of a type with its parts spelled out. -/
def view (arena : Arena) (type : TypeId) : Except Failure (View type) := do
  (← arena.shape type).mapM type.part
    (fun set => do (← arena.paramSet set).mapM type.part) id

/-! ### Classes and enums -/

/-- The body of a finished class, known by the number of its unqualified type. -/
def classBody? (arena : Arena) (type : TypeId) : Option ClassBody := arena.classes.lookup type

/-- The body of a finished enum, known by the number of its unqualified type. -/
def enumBody? (arena : Arena) (type : TypeId) : Option EnumBody := arena.enums.lookup type

/-- The unqualified class that a type is, refused for other types. -/
def classOwner (arena : Arena) (type : TypeId) : Except Failure TypeId := do
  if (← arena.kind type).isClass then arena.unqualified type
  else throw (.type (.notClass type))

/-- The unqualified enum that a type is, refused for other types. -/
def enumOwner (arena : Arena) (type : TypeId) : Except Failure TypeId := do
  if (← arena.kind type) = .enum then arena.unqualified type
  else throw (.type (.notEnum type))

/-- The body of a class, refused while it is open. -/
def classBody (arena : Arena) (type : TypeId) : Except Failure ClassBody := do
  orFail (.type (.incomplete type)) (arena.classBody? (← arena.classOwner type))

/-- The body of an enum, refused while it is open. -/
def enumBody (arena : Arena) (type : TypeId) : Except Failure EnumBody := do
  orFail (.type (.incomplete type)) (arena.enumBody? (← arena.enumOwner type))

/-- Opens a class that has no body yet. -/
def openClass (arena : Arena) (type : TypeId) : Except Failure ClassDraft := do
  let owner ← arena.classOwner type
  if (arena.classBody? owner).isSome then throw (.type (.alreadyComplete owner))
  return ClassDraft.new owner

/-- Opens an enum that has no body yet. -/
def openEnum (arena : Arena) (type : TypeId) : Except Failure EnumDraft := do
  let owner ← arena.enumOwner type
  if (arena.enumBody? owner).isSome then throw (.type (.alreadyComplete owner))
  return EnumDraft.new owner

/-- The body of a finished class or enum. -/
def definition? (arena : Arena) (type : TypeId) : Option Definition :=
  match arena.classBody? type with
  | some body => some (.ofClass body)
  | none => (arena.enumBody? type).map .ofEnum

/-- The bodies of finished classes and enums, in the order of completion. -/
def definitions (arena : Arena) : List (TypeId × Definition) :=
  arena.completed.filterMap fun type => (arena.definition? type).map (type, ·)

/-- The types, parameter lists and bodies without names and registries, which is all that sizes are
computed from. -/
def contents (arena : Arena) : Store where
  names := Names.empty
  target := arena.target
  nodes := Table.ofList (arena.slots.toList.map Slot.node)
  paramSets := arena.paramSets.table
  definitions := arena.definitions
  settled := []

/-! ### Additions -/

/-- Appends an unqualified type. -/
def pushPlain (arena : Arena) (shape : Shape TypeId ParamSetId PathId) : Arena :=
  let type : TypeId := ⟨arena.slots.size⟩
  { arena with
    slots := arena.slots.push ⟨shape, Qual.none, type, [], false⟩
    byShape := arena.byShape.insert shape type }

/-- Appends a variant of `plain`, which lists it from now on. -/
def pushVariant (arena : Arena) (plain : TypeId) (node : Node) : Arena :=
  let type : TypeId := ⟨arena.slots.size⟩
  let slots := arena.slots.push ⟨node.shape, node.qual, plain, [], false⟩
  { arena with
    slots := slots.modify plain.index (·.addVariant type)
    byQual := arena.byQual.insert (plain, node.qual) type }

/-- Notes that a tuple is complete. -/
def settle (arena : Arena) (type : TypeId) : Arena :=
  { arena with slots := arena.slots.modify type.index ({ · with complete := true }) }

/-- Fixes the body of a class. -/
def addClass (arena : Arena) (type : TypeId) (body : ClassBody) : Arena :=
  { arena with
    classes := arena.classes ++ [(type, body)]
    completed := arena.completed ++ [type] }

/-- Fixes the body of an enum. -/
def addEnum (arena : Arena) (type : TypeId) (body : EnumBody) : Arena :=
  { arena with
    enums := arena.enums ++ [(type, body)]
    completed := arena.completed ++ [type] }

end Arena

end TypeGraph

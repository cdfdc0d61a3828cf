import TypeGraph.Layout
import TypeGraph.Store.Build

/-!
Opening and completing classes and enums. A body is fixed once: the size of a class is computed
when it is completed, from types that must be sized by then.
-/

namespace TypeGraph

namespace Store

/-- Opens a class that has no body yet. -/
def openClass (store : Store) (type : TypeId) : Except Failure ClassDraft := do
  let owner ← store.classOwner type
  if (store.classBody? owner).isSome then throw (.type (.alreadyComplete owner))
  return ClassDraft.new owner

/-- Opens an enum that has no body yet. -/
def openEnum (store : Store) (type : TypeId) : Except Failure EnumDraft := do
  let owner ← store.enumOwner type
  if (store.enumBody? owner).isSome then throw (.type (.alreadyComplete owner))
  return EnumDraft.new owner

/-- The bytes that a class reaches over so far, and its alignment so far. -/
structure Reach where
  bytes : Count
  align : Count

/-- Takes in a base class, which starts where the object does. -/
def reachBase (store : Store) (reach : Reach) (base : BaseClass) : Except Failure Reach := do
  let _ ← store.classOwner base.type
  let size ← store.size base.type
  let align ← store.align base.type
  return ⟨max reach.bytes size, max reach.align align⟩

/-- Takes in a data member of the class `type`. -/
def reachMember (store : Store) (type : TypeId) (reach : Reach) (member : Member String) :
    Except Failure Reach := do
  let size ← store.size member.type
  let stop ← orFail (.type (.sizeOverflow type)) (Count.add? member.offset size)
  let align ← store.align member.type
  return ⟨max reach.bytes stop, max reach.align align⟩

/-- What the bases and data members of a class reach over. -/
def classReach (store : Store) (draft : ClassDraft) : Except Failure Reach := do
  let reach ← draft.bases.foldlM store.reachBase ⟨0, 1⟩
  draft.data.foldlM (store.reachMember draft.type) reach

/-- Size and alignment of a class. The size is at least one byte and a whole number of words. -/
def classLayout (store : Store) (draft : ClassDraft) : Except Failure (Count × Count) := do
  let reach ← store.classReach draft
  let size ← orFail (.type (.sizeOverflow draft.type))
    (store.target.roundToWord? (max reach.bytes 1))
  return (size, reach.align)

end Store

namespace Build

/-- Enters the name of a member. -/
def nameMember (member : Member String) : Build (Member Keyword) := do
  return member.rename (← intern member.name)

/-- Enters the name of an enumerator. -/
def nameValue (entry : String × Int128) : Build (Keyword × Int128) := do
  return (← intern entry.1, entry.2)

/-- Fixes the body of a class or enum. -/
def define (type : TypeId) (definition : Definition) : Build Unit :=
  modify fun store => { store with definitions := store.definitions ++ [(type, definition)] }

/-- Completes a class. -/
def completeClass (draft : ClassDraft) : Build TypeId := do
  if ((← get).classBody? draft.type).isSome then throw (.type (.alreadyComplete draft.type))
  let (size, align) ← query (·.classLayout draft)
  let data ← draft.data.mapM nameMember
  let functions ← draft.functions.mapM nameMember
  match ← query (·.shape draft.type) with
  | .classType _ _ =>
      define draft.type (.ofClass ⟨draft.bases, data, functions, size, align⟩)
      return draft.type
  | _ => throw (.fault (.notAggregate draft.type))

/-- Completes an enum, whose values are stored as `base`. -/
def completeEnum (draft : EnumDraft) (base : TypeId) : Build TypeId := do
  if ((← get).enumBody? draft.type).isSome then throw (.type (.alreadyComplete draft.type))
  let kind ← query (·.kind base)
  if !kind.isInteger || kind.isNamed then throw (.type (.invalidEnumBase draft.type base))
  let values ← draft.values.mapM nameValue
  match ← query (·.shape draft.type) with
  | .enumType _ =>
      define draft.type (.ofEnum ⟨draft.flavor, values, base⟩)
      return draft.type
  | _ => throw (.fault (.notAggregate draft.type))

end Build

end TypeGraph

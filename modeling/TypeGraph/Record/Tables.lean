import TypeGraph.Record.Load
import TypeGraph.Store.Complete

/-!
Tables of classes and enums: first the record of every one that was declared, then the bodies of the
finished ones in the order of completion. Reading declares the names and opens every body; the
bodies are completed afterwards, in that order.
-/

namespace TypeGraph

/-! ### Writing -/

namespace Store

/-- The declared classes and enums, oldest first. -/
def declared (store : Store) : List TypeId :=
  store.types.filter fun type =>
    match store.node? type with
    | some node => node.qual.isNone && node.shape.kind.isNamed
    | none => false

def saveBase (store : Store) (base : BaseClass) : Output :=
  store.save base.type ++ .str base.access.tag ++ .bool base.isVirtual

def saveMember (store : Store) (member : Member Keyword) : Output :=
  .text (store.names.text member.name) ++ store.save member.type ++ .count member.offset ++
    .str member.access.tag ++ .bool member.flag

def saveValue (store : Store) (entry : Keyword × Int128) : Output :=
  .text (store.names.text entry.1) ++ .signed entry.2

/-- The body of a finished class or enum. -/
def saveBody (store : Store) : TypeId × Definition → Output
  | (type, .ofClass body) =>
      .tag "class_body" ++ store.save type ++
        .length body.bases ++ .concat (body.bases.map store.saveBase) ++
        .length body.data ++ .concat (body.data.map store.saveMember) ++
        .length body.functions ++ .concat (body.functions.map store.saveMember)
  | (type, .ofEnum body) =>
      .tag "enum_body" ++ store.save type ++ .str body.flavor.tag ++ store.save body.base ++
        .length body.values ++ .concat (body.values.map store.saveValue)

/-- The tables of a store. -/
def saveTables (store : Store) : Output :=
  .tag "decls" ++ .length store.declared ++ .concat (store.declared.map store.save) ++
    .tag "bodies" ++ .length store.definitions ++ .concat (store.definitions.map store.saveBody)

end Store

/-! ### Reading -/

/-- A body that was read and is still to be completed. -/
inductive OpenBody where
  | ofClass (draft : ClassDraft)
  | ofEnum (draft : EnumDraft) (base : TypeId)
deriving DecidableEq, Repr

namespace Load

def baseClass : Load BaseClass := do
  let type ← type
  let access ← read .tagged
  return ⟨type, access, ← read .bool⟩

def member : Load (Member String) := do
  let name ← read .str
  let type ← type
  let offset ← read .count
  let access ← read .tagged
  return ⟨name, type, offset, access, ← read .bool⟩

/-- As many elements as the number that comes first. -/
def list {α : Type} (element : Load α) : Load (List α) := do
  times element (← read .count).toNat

def classDraft : Load ClassDraft := do
  let type ← type
  let draft ← build (Build.query (·.openClass type))
  let bases ← list baseClass
  let data ← list member
  let functions ← list member
  return { draft with bases, data, functions }

/-- Adds the given number of enumerators. -/
def enumerators (draft : EnumDraft) : Nat → Load EnumDraft
  | 0 => return draft
  | n + 1 => do
      let name ← read .str
      match draft.add name (← read .signed) with
      | .ok draft => enumerators draft n
      | .error error => throw (.type error)

def enumDraft : Load (EnumDraft × TypeId) := do
  let type ← type
  let draft ← build (Build.query (·.openEnum type))
  let flavor ← read .tagged
  let base ← Load.type
  let count ← read .count
  return (← enumerators { draft with flavor } count.toNat, base)

def openBody : Load OpenBody := do
  let tag ← read .tag
  if tag = "class_body" then return .ofClass (← classDraft)
  else if tag = "enum_body" then
    let (draft, base) ← enumDraft
    return .ofEnum draft base
  else throw (.archive (.unknownTag tag))

/-- Tables up to their completion. -/
def tables : Load (List OpenBody) := do
  read (.exactTag "decls")
  let _ ← list type
  read (.exactTag "bodies")
  list openBody

end Load

namespace Build

/-- Completes one body. -/
def completeBody : OpenBody → Build TypeId
  | .ofClass draft => completeClass draft
  | .ofEnum draft base => completeEnum draft base

/-- Completes all bodies in turn, up to the first that fails. -/
def completeAll (bodies : List OpenBody) : Build Unit :=
  bodies.forM fun body => do
    let _ ← completeBody body

end Build

end TypeGraph

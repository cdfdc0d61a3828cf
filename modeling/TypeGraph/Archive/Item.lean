import TypeGraph.Failure

/-!
The items that an archive is a list of, and taking them off its front. Taking an item of the wrong
kind takes it all the same.
-/

namespace TypeGraph

/-- One item of an archive. -/
inductive Item where
  /-- Tells what follows. -/
  | tag (text : String)
  | bool (value : Bool)
  | unsigned (value : Count)
  | signed (value : Int128)
  | str (text : String)
  /-- A path, outermost segment first. -/
  | key (segments : List String)
deriving DecidableEq, Repr

/-- What an item is called in messages. -/
def Item.describe : Item → String
  | .tag _ => "tag"
  | .bool _ => "bool"
  | .unsigned _ => "unsigned"
  | .signed _ => "signed"
  | .str _ => "string"
  | .key _ => "key"

/-- Takes items off the front of a list. -/
abbrev ItemReader := EStateM ArchiveError (List Item)

namespace ItemReader

/-- Takes the first item and reads it, naming what was expected where that is not possible. -/
def take {α : Type} (expected : String) (read : Item → Option α) : ItemReader α := do
  match ← get with
  | [] => throw (.unexpectedEnd expected)
  | item :: rest =>
      set rest
      match read item with
      | some value => return value
      | none => throw (.unexpectedItem expected item.describe)

def tag : ItemReader String :=
  take "tag" fun
    | .tag text => some text
    | _ => none

def bool : ItemReader Bool :=
  take "bool" fun
    | .bool value => some value
    | _ => none

/-- A number of 64 bits. -/
def count : ItemReader Count :=
  take "unsigned" fun
    | .unsigned value => some value
    | _ => none

/-- A number that has to fit in 32 bits. -/
def word : ItemReader UInt32 := do
  let value ← count
  if value.toNat < UInt32.size then return value.toUInt32 else throw (.outOfRange value "u32")

def signed : ItemReader Int128 :=
  take "signed" fun
    | .signed value => some value
    | _ => none

def str : ItemReader String :=
  take "string" fun
    | .str text => some text
    | _ => none

def key : ItemReader (List String) :=
  take "key" fun
    | .key segments => some segments
    | _ => none

/-- A member of a finite type, written as a string. -/
def tagged {α : Type} [Tagged α] : ItemReader α := do
  let text ← str
  match Tagged.ofTag? text with
  | some a => return a
  | none => throw (.unknownTag text)

/-- The tag `expected` and no other. -/
def exactTag (expected : String) : ItemReader Unit := do
  let found ← tag
  if found ≠ expected then throw (.unknownTag found)

end ItemReader

end TypeGraph

import TypeGraph.Tree.Basic

/-!
Types written for people. What is built on a type is written after it, so the text reads from
right to left: `int const*`, `char[4]`, `int(char, ...)`.
-/

namespace TypeGraph

/-- Element count of an array for people. -/
def Extent.display : Extent → String
  | .fixed count => "[" ++ toString count ++ "]"
  | .incomplete => "[]"
  | .variable expr => "[" ++ expr.text ++ "]"
  | .unspecified => "[*]"

/-- A path for people. -/
def PathName.display (path : PathName) : Except Failure String := path.map writePath

/-- An address space for people, with the array it names unless that is the root. -/
def Space.display (space : Space PathName) : Except Failure String := do
  if space.isGeneric then return ""
  let tag := " __" ++ space.storage.tag
  match space.name with
  | none => return tag
  | some name =>
      match ← name with
      | [] => return tag
      | segments => return tag ++ "(" ++ writePath segments ++ ")"

/-- Qualifiers for people. -/
def Qual.display (qual : Qual PathName) : Except Failure String := do
  let space ← qual.space.display
  return space ++ (if qual.isAtomic then " _Atomic" else "") ++
    (if qual.isConst then " const" else "") ++ (if qual.isRestrict then " restrict" else "") ++
    (if qual.isVolatile then " volatile" else "")

/-- A parameter list for people, its types being written already. -/
def displayParams (types : List String) (variadic : Bool) : String :=
  "(" ++ ", ".intercalate (if variadic then types ++ ["..."] else types) ++ ")"

namespace Tree

/-- The class before the name of a member. -/
def displayScope (owner : Tree) : Except Failure String := do
  match owner.shape.name? with
  | some name => return (← PathName.display name) ++ "::"
  | none => return "::"

mutual

/-- A type for people. -/
def display : Tree → Except Failure String
  | ⟨shape, qual⟩ => do return (← displayShape shape) ++ (← qual.display)
termination_by structural tree => tree

/-- A type for people, without its qualifiers. -/
def displayShape : TreeShape → Except Failure String
  | .builtin type => return type.name
  | .array base extent => do return (← display base) ++ extent.display
  | .bitfield base bits _ => do return (← display base) ++ " : " ++ toString bits
  | .pointer base => do return (← display base) ++ "*"
  | .leftRef base => do return (← display base) ++ "&"
  | .rightRef base => do return (← display base) ++ "&&"
  | .function ret ⟨types, variadic⟩ _ => do
      let ret ← display ret
      return ret ++ displayParams (← displayAll types) variadic
  | .memberFunction owner ret ⟨types, variadic⟩ _ => do
      let ret ← display ret
      let scope ← displayScope owner
      return ret ++ " " ++ scope ++ displayParams (← displayAll types) variadic
  | .memberPointer owner base => do
      return (← display base) ++ " " ++ (← displayScope owner) ++ "*"
  | .tuple ⟨types, variadic⟩ => do
      return "__tuple" ++ displayParams (← displayAll types) variadic
  | .classType name isStruct => do
      return (if isStruct then "struct " else "union ") ++ (← PathName.display name)
  | .enumType name => do return "enum " ++ (← PathName.display name)
termination_by structural shape => shape

/-- Every type of a list for people. -/
def displayAll : List Tree → Except Failure (List String)
  | [] => return []
  | tree :: rest => do return (← display tree) :: (← displayAll rest)
termination_by structural list => list

end

end Tree

/-- A type of the store for people. -/
def Store.display (store : Store) (type : TypeId) : Except Failure String := do
  (← store.tree type).display

end TypeGraph

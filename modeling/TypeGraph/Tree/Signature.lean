import TypeGraph.Tree.Basic

/-!
Signatures: types written for the linker, each in one way only.

A signature is the letter of the shape, its fields and the qualifiers. Nested types stand in
parentheses, numbers in brackets, paths in braces and tags in angle brackets.
-/

namespace TypeGraph.Signature

def bracket (text : String) : String := "[" ++ text ++ "]"

/-- A tag. -/
def tagged (tag : String) : String := "<" ++ tag ++ ">"

/-- A type inside another one. -/
def nested (text : String) : String := "(" ++ text ++ ")"

/-- A path: every segment follows two colons. -/
def segments (texts : List String) : String :=
  "\x7b" ++ String.join (texts.map ("::" ++ ·)) ++ "\x7d"

/-- A path. -/
def name (path : PathName) : Except Failure String := path.map segments

/-- The path of a class that has a member. -/
def ownerName (owner : Tree) : Except Failure String :=
  match owner.shape.name? with
  | some path => name path
  | none => .ok ""

/-- Element count of an array. -/
def extent : Extent → String
  | .fixed count => bracket (toString count)
  | .incomplete => bracket ""
  | .variable expr => bracket ("*" ++ toString expr.index)
  | .unspecified => bracket "*"

/-- An address space. Nothing is written for the generic one, and placeholders are refused. -/
def space (space : Space PathName) : Except Failure String := do
  if space.storage.isPlaceholder then throw (.type (.internalSpace space.storage))
  if space.isGeneric then return ""
  match space.name with
  | none => return tagged space.storage.tag
  | some path => return tagged (space.storage.tag ++ (← name path))

/-- Qualifiers: the address space, then a letter for each flag. -/
def qual (qual : Qual PathName) : Except Failure String := do
  let space ← space qual.space
  return space ++ (if qual.isAtomic then "a" else "") ++ (if qual.isConst then "c" else "") ++
    (if qual.isRestrict then "r" else "") ++ (if qual.isVolatile then "v" else "")

/-- A parameter list, its types being written already. -/
def params (types : List String) (variadic : Bool) : String :=
  nested (",".intercalate (types.map nested ++ if variadic then ["..."] else []))

mutual

/-- The signature of a type. -/
def ofTree : Tree → Except Failure String
  | ⟨shape, qualifiers⟩ => do return (← ofShape shape) ++ (← qual qualifiers)
termination_by structural tree => tree

/-- The signature of a type without its qualifiers. -/
def ofShape : TreeShape → Except Failure String
  | .builtin type => return "B" ++ tagged type.tag
  | .array base count => do return "A" ++ extent count ++ nested (← ofTree base)
  | .bitfield base bits offset => do
      return "W" ++ nested (← ofTree base) ++ bracket (toString bits) ++ bracket (toString offset)
  | .pointer base => do return "P" ++ nested (← ofTree base)
  | .leftRef base => do return "L" ++ nested (← ofTree base)
  | .rightRef base => do return "R" ++ nested (← ofTree base)
  | .function ret ⟨types, variadic⟩ conv => do
      let types ← ofTrees types
      return "F" ++ tagged conv.tag ++ params types variadic ++ nested (← ofTree ret)
  | .memberFunction owner ret ⟨types, variadic⟩ conv => do
      let owner ← ownerName owner
      let types ← ofTrees types
      return "M" ++ owner ++ tagged conv.tag ++ params types variadic ++ nested (← ofTree ret)
  | .memberPointer owner base => do
      let owner ← ownerName owner
      return "O" ++ owner ++ nested (← ofTree base)
  | .tuple ⟨types, variadic⟩ => do return "T" ++ params (← ofTrees types) variadic
  | .classType path isStruct => do return (if isStruct then "S" else "U") ++ (← name path)
  | .enumType path => do return "E" ++ (← name path)
termination_by structural shape => shape

/-- The signatures of all types of a list. -/
def ofTrees : List Tree → Except Failure (List String)
  | [] => return []
  | tree :: rest => do return (← ofTree tree) :: (← ofTrees rest)
termination_by structural list => list

end

end TypeGraph.Signature

namespace TypeGraph

/-- The signature of a type of the store. -/
def Store.signature (store : Store) (type : TypeId) : Except Failure String := do
  Signature.ofTree (← store.tree type)

end TypeGraph

import TypeGraph.Record.Output
import TypeGraph.Tree.Basic

/-!
Records of types. A record is a tag for the shape, the fields of the shape, and the qualifiers.
Types inside it are records themselves; classes and enums are written by name.
-/

namespace TypeGraph

/-- The tag that a record starts with, where that is not the tag of a builtin type. -/
inductive ShapeTag where
  | array
  | arrayIncomplete
  | arrayVariable
  | arrayUnspecified
  | bitfield
  | pointer
  | leftRef
  | rightRef
  | function
  | memberFunction
  | memberPointer
  | tuple
  | struct
  | union
  | enum
deriving DecidableEq, Repr

namespace ShapeTag

def all : List ShapeTag :=
  [.array, .arrayIncomplete, .arrayVariable, .arrayUnspecified, .bitfield, .pointer, .leftRef,
    .rightRef, .function, .memberFunction, .memberPointer, .tuple, .struct, .union, .enum]

def tag : ShapeTag → String
  | .array => "array"
  | .arrayIncomplete => "array_incomplete"
  | .arrayVariable => "array_vla"
  | .arrayUnspecified => "array_vla_unspec"
  | .bitfield => "bitfield"
  | .pointer => "pointer"
  | .leftRef => "lref"
  | .rightRef => "rref"
  | .function => "function"
  | .memberFunction => "member_function"
  | .memberPointer => "member_pointer"
  | .tuple => "tuple"
  | .struct => "struct"
  | .union => "union"
  | .enum => "enum"

theorem mem_all (tag : ShapeTag) : tag ∈ all := by cases tag <;> decide

instance : Tagged ShapeTag where
  all := all
  tag := tag
  mem_all := mem_all
  nodup_tags := by decide +kernel

end ShapeTag

/-- The start of the record of an array. -/
def Extent.record : Extent → Output
  | .fixed count => .tag ShapeTag.array.tag ++ .count count
  | .incomplete => .tag ShapeTag.arrayIncomplete.tag
  | .variable expr => .tag ShapeTag.arrayVariable.tag ++ .word expr.index
  | .unspecified => .tag ShapeTag.arrayUnspecified.tag

/-- The record of an address space. Placeholders are refused; a declarable space is followed by the
array it names, or the root. -/
def Space.record (space : Space PathName) : Output :=
  if space.storage.isPlaceholder then .fail (.type (.internalSpace space.storage))
  else if space.storage.isDeclarable then
    .str space.storage.tag ++ .key (space.name.getD (.ok []))
  else .str space.storage.tag

/-- The record of qualifiers. -/
def Qual.record (qual : Qual PathName) : Output :=
  qual.space.record ++ .bool qual.isAtomic ++ .bool qual.isConst ++ .bool qual.isRestrict ++
    .bool qual.isVolatile

namespace Tree

mutual

/-- The record of a type. -/
def record : Tree → Output
  | ⟨shape, qual⟩ => recordShape shape ++ qual.record
termination_by structural tree => tree

/-- The record of a type without its qualifiers. -/
def recordShape : TreeShape → Output
  | .builtin type => .tag type.tag
  | .array base extent => extent.record ++ record base
  | .bitfield base bits offset =>
      .tag ShapeTag.bitfield.tag ++ .word bits ++ .word offset ++ record base
  | .pointer base => .tag ShapeTag.pointer.tag ++ record base
  | .leftRef base => .tag ShapeTag.leftRef.tag ++ record base
  | .rightRef base => .tag ShapeTag.rightRef.tag ++ record base
  | .function ret ⟨types, variadic⟩ conv =>
      .tag ShapeTag.function.tag ++ record ret ++ .length types ++ .bool variadic ++
        recordAll types ++ .str conv.tag
  | .memberFunction owner ret ⟨types, variadic⟩ conv =>
      .tag ShapeTag.memberFunction.tag ++ record owner ++ record ret ++ .length types ++
        .bool variadic ++ recordAll types ++ .str conv.tag
  | .memberPointer owner base =>
      .tag ShapeTag.memberPointer.tag ++ record owner ++ record base
  | .tuple ⟨types, variadic⟩ =>
      .tag ShapeTag.tuple.tag ++ .length types ++ .bool variadic ++ recordAll types
  | .classType name isStruct =>
      .tag (if isStruct then ShapeTag.struct.tag else ShapeTag.union.tag) ++ .key name
  | .enumType name => .tag ShapeTag.enum.tag ++ .key name
termination_by structural shape => shape

/-- The records of all types of a list. -/
def recordAll : List Tree → Output
  | [] => .empty
  | tree :: rest => record tree ++ recordAll rest
termination_by structural list => list

end

end Tree

/-- The record of a type of the store. -/
def Store.save (store : Store) (type : TypeId) : Output :=
  match store.tree type with
  | .ok tree => tree.record
  | .error failure => .fail failure

end TypeGraph

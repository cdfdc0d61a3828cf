import TypeGraph.Tagged
import TypeGraph.Trait

/-!
The listing of all traits, each under a tag of its own, and the classification of a type: the
traits that it has, in the order of the listing.
-/

namespace TypeGraph

def KindTrait.tag : KindTrait → String
  | .void => "void"
  | .label => "label"
  | .str => "string"
  | .nullPtr => "nullptr"
  | .boolean => "boolean"
  | .character => "character"
  | .integer => "integer"
  | .fixed => "fixed"
  | .float => "float"
  | .arithmetic => "arithmetic"
  | .scalar => "scalar"
  | .aggregate => "aggregate"
  | .array => "array"
  | .pointer => "pointer"
  | .leftRef => "lvalue_reference"
  | .rightRef => "rvalue_reference"
  | .reference => "reference"
  | .function => "function"
  | .staticFunction => "static_function"
  | .memberFunction => "member_function"
  | .memberPointer => "member_pointer"
  | .tuple => "tuple"
  | .struct => "struct"
  | .union => "union"
  | .classType => "class"
  | .enum => "enum"
  | .object => "object"
  | .named => "named"
  | .derived => "derived"

def BuiltinTrait.tag : BuiltinTrait → String
  | .signed => "signed"
  | .unsigned => "unsigned"
  | .saturating => "saturating"
  | .accum => "accum"
  | .fract => "fract"
  | .complex => "complex"
  | .imaginary => "imaginary"
  | .softBool => "soft_bool"
  | .wideChar => "wide_char"
  | .plainChar => "plain_char"

namespace Trait

def tag : Trait → String
  | .ofKind trait => trait.tag
  | .ofBuiltin trait => trait.tag
  | .bitfield => "bitfield"
  | .real => "real"
  | .realFloat => "real_float"
  | .scopedEnum => "scoped_enum"
  | .complete => "complete"
  | .incompleteArray => "incomplete_array"
  | .fixedArray => "fixed_array"
  | .variableArray => "vla"
  | .variablyModified => "variably_modified"
  | .sized => "sized"
  | .variadic => "variadic"
  | .farPointer => "far_pointer"
  | .subWord => "sub_word"
  | .qualified => "qualified"
  | .const => "const"
  | .volatile => "volatile"
  | .restrict => "restrict"
  | .atomic => "atomic"

/-- Every trait, in order. -/
def all : List Trait :=
  [.ofKind .void, .ofKind .label, .ofKind .str, .ofKind .nullPtr, .ofKind .boolean,
    .ofKind .character, .ofKind .integer, .ofKind .fixed, .ofKind .float, .ofKind .arithmetic,
    .ofKind .scalar, .ofKind .aggregate, .ofKind .array, .ofKind .pointer, .ofKind .leftRef,
    .ofKind .rightRef, .ofKind .reference, .ofKind .function, .ofKind .staticFunction,
    .ofKind .memberFunction, .ofKind .memberPointer, .ofKind .tuple, .ofKind .struct,
    .ofKind .union, .ofKind .classType, .ofKind .enum, .ofKind .object, .ofKind .named,
    .ofKind .derived, .bitfield, .ofBuiltin .signed, .ofBuiltin .unsigned,
    .ofBuiltin .saturating, .ofBuiltin .accum, .ofBuiltin .fract, .ofBuiltin .complex,
    .ofBuiltin .imaginary, .real, .realFloat, .ofBuiltin .softBool, .ofBuiltin .wideChar,
    .ofBuiltin .plainChar, .scopedEnum, .complete, .incompleteArray, .fixedArray,
    .variableArray, .variablyModified, .sized, .variadic, .farPointer, .subWord, .qualified,
    .const, .volatile, .restrict, .atomic]

instance : Tagged Trait where
  all := all
  tag := tag
  mem_all trait := by
    cases trait with
    | ofKind trait => cases trait <;> decide
    | ofBuiltin trait => cases trait <;> decide
    | _ => decide
  nodup_tags := by decide

end Trait

/-- The traits that a type has. -/
def Build.classify (type : TypeId) : Build (List Trait) := Trait.all.filterM (Build.has type)

end TypeGraph

import TypeGraph.Tagged
import TypeGraph.Kind
import TypeGraph.Builtin.Integral
import TypeGraph.Builtin.Fractional

/-!
The builtin types in their fixed order. Main statement: a builtin type is found at its own place
in that order (`all_slot`).
-/

namespace TypeGraph

/-- A builtin type. -/
inductive Builtin where
  | void
  /-- Address of a jump target. -/
  | label
  /-- String handle. -/
  | str
  /-- Type of the null pointer. -/
  | nullPtr
  | bool (type : BoolType)
  | char (type : CharType)
  | int (type : IntType)
  | fixed (type : FixedType)
  | float (type : FloatType)
deriving DecidableEq, Repr

namespace Builtin

/-- Every builtin type, in order. -/
def all : List Builtin :=
  [.void, .label, .str, .nullPtr] ++ BoolType.all.map .bool ++ CharType.all.map .char ++
    IntType.all.map .int ++ FixedType.all.map .fixed ++ FloatType.all.map .float

/-- Place of a type among all builtin types. -/
def slot (type : Builtin) : Nat := all.idxOf type

def kind : Builtin → Kind
  | .void => .void
  | .label => .label
  | .str => .str
  | .nullPtr => .nullPtr
  | .bool _ => .bool
  | .char _ => .char
  | .int _ => .integer
  | .fixed _ => .fixed
  | .float _ => .float

/-- Size in bytes. Void and label have none. -/
def size? (target : Target) : Builtin → Option Count
  | .void | .label => none
  | .str | .nullPtr => some target.wordBytes
  | .bool type => some (type.size target)
  | .char type => some (type.size target)
  | .int type => some (type.size target)
  | .fixed type => some (type.bytes target)
  | .float type => some (type.bytes target)

/-- Alignment in bytes. Void and label have none. -/
def align? (target : Target) : Builtin → Option Count
  | .float type => some (type.align target)
  | type => (type.size? target).map target.scalarAlign

/-- Whether values carry a sign. -/
def isSigned : Builtin → Bool
  | .char type => type.isSigned
  | .int type => type.signed
  | .fixed type => type.signed
  | .float _ => true
  | .void | .label | .str | .nullPtr | .bool _ => false

/-- Whether values are booleans, characters, integers or fixed-point numbers without a sign. -/
def isUnsigned (type : Builtin) : Bool :=
  match type with
  | .bool _ | .char _ | .int _ | .fixed _ => !type.isSigned
  | .void | .label | .str | .nullPtr | .float _ => false

/-- Integer conversion rank of booleans, characters and integers. -/
def rank? : Builtin → Option Nat
  | .bool _ => some 0
  | .char type => some type.rank
  | .int type => some type.rank
  | _ => none

/-- The builtin type that this one is derived from. -/
def base? : Builtin → Option Builtin
  | .fixed type => type.base?.map .fixed
  | .float type => type.base?.map .float
  | _ => none

/-- Short name for signatures and archives. -/
def tag : Builtin → String
  | .void => "void"
  | .label => "label"
  | .str => "str"
  | .nullPtr => "nullptr"
  | .bool type => type.tag
  | .char type => type.tag
  | .int type => type.tag
  | .fixed type => type.tag
  | .float type => type.tag

/-- Source spelling. -/
def name : Builtin → String
  | .void => "void"
  | .label => "__label"
  | .str => "__str"
  | .nullPtr => "nullptr_t"
  | .bool type => type.name
  | .char type => type.name
  | .int type => type.name
  | .fixed type => type.name
  | .float type => type.name

theorem mem_all (type : Builtin) : type ∈ all := by
  rcases type with _ | _ | _ | _ | ⟨_ | _⟩ | ⟨_ | _, _ | _ | _⟩ | ⟨_ | _ | _ | _, _ | _⟩ |
      ⟨_ | _, _ | _ | _, _ | _, _ | _⟩ | ⟨_ | _ | _, _ | _ | _⟩ <;> decide

instance : Tagged Builtin where
  all := all
  tag := tag
  mem_all := mem_all
  nodup_tags := by decide +kernel

/-- A builtin type stands at its own place. -/
theorem all_slot (type : Builtin) : all[type.slot]? = some type := by
  have h : type.slot < all.length := List.idxOf_lt_length_of_mem (mem_all type)
  rw [List.getElem?_eq_getElem h]
  simp [slot]

end Builtin

end TypeGraph

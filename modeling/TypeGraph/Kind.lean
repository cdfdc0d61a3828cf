/-!
The kinds of type, and every classification that follows from the kind alone.
-/

namespace TypeGraph

/-- The kind of a type. -/
inductive Kind where
  | void
  | label
  | str
  | nullPtr
  | bool
  | char
  | integer
  | fixed
  | float
  | array
  | bitfield
  | pointer
  | leftRef
  | rightRef
  | function
  | memberFunction
  | memberPointer
  | tuple
  | struct
  | union
  | enum
deriving DecidableEq, Repr

namespace Kind

/-- Every kind, in order. -/
def all : List Kind :=
  [.void, .label, .str, .nullPtr, .bool, .char, .integer, .fixed, .float, .array, .bitfield,
    .pointer, .leftRef, .rightRef, .function, .memberFunction, .memberPointer, .tuple, .struct,
    .union, .enum]

def name : Kind → String
  | .void => "void"
  | .label => "label"
  | .str => "string"
  | .nullPtr => "nullptr"
  | .bool => "boolean"
  | .char => "character"
  | .integer => "integer"
  | .fixed => "fixed-point"
  | .float => "floating"
  | .array => "array"
  | .bitfield => "bit-field"
  | .pointer => "pointer"
  | .leftRef => "lvalue reference"
  | .rightRef => "rvalue reference"
  | .function => "function"
  | .memberFunction => "member function"
  | .memberPointer => "member pointer"
  | .tuple => "tuple"
  | .struct => "struct"
  | .union => "union"
  | .enum => "enum"

/-- The kinds of the builtin types. -/
def isBuiltin : Kind → Bool
  | .void | .label | .str | .nullPtr | .bool | .char | .integer | .fixed | .float => true
  | _ => false

/-- Booleans, characters, integers and enums. -/
def isInteger : Kind → Bool
  | .bool | .char | .integer | .enum => true
  | _ => false

/-- Integer, fixed-point and floating types. -/
def isArithmetic (kind : Kind) : Bool :=
  kind.isInteger || kind == .fixed || kind == .float

def isScalar (kind : Kind) : Bool :=
  kind.isArithmetic || kind == .pointer || kind == .nullPtr || kind == .memberPointer ||
    kind == .str

def isAggregate : Kind → Bool
  | .array | .struct | .tuple => true
  | _ => false

/-- Functions and member functions. -/
def isFunction : Kind → Bool
  | .function | .memberFunction => true
  | _ => false

def isReference : Kind → Bool
  | .leftRef | .rightRef => true
  | _ => false

/-- Everything but functions and references. -/
def isObject (kind : Kind) : Bool := !kind.isFunction && !kind.isReference

def isClass : Kind → Bool
  | .struct | .union => true
  | _ => false

/-- Types that are told apart by their name. -/
def isNamed (kind : Kind) : Bool := kind.isClass || kind == .enum

/-- Types built from other types. -/
def isDerived : Kind → Bool
  | .array | .bitfield | .pointer | .leftRef | .rightRef | .function | .memberFunction
  | .memberPointer | .tuple => true
  | _ => false

/-- Whether values of this kind have a size in bytes at all. -/
def hasSize : Kind → Bool
  | .void | .label | .function | .memberFunction => false
  | _ => true

theorem mem_all (kind : Kind) : kind ∈ all := by cases kind <;> decide

end Kind

end TypeGraph

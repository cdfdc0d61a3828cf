import TypeGraph.Completeness
import TypeGraph.Layout

/-!
Classification: the yes-or-no questions about a type. Those that follow from the kind alone, and
those that follow from the builtin type behind, are answered for a bit-field as for its base.
-/

namespace TypeGraph

/-- A question that the kind answers. -/
inductive KindTrait where
  | void
  | label
  | str
  | nullPtr
  | boolean
  | character
  | integer
  | fixed
  | float
  | arithmetic
  | scalar
  | aggregate
  | array
  | pointer
  | leftRef
  | rightRef
  | reference
  | function
  | staticFunction
  | memberFunction
  | memberPointer
  | tuple
  | struct
  | union
  | classType
  | enum
  | object
  | named
  | derived
deriving DecidableEq, Repr

def KindTrait.holds (kind : Kind) : KindTrait → Bool
  | .void => kind == .void
  | .label => kind == .label
  | .str => kind == .str
  | .nullPtr => kind == .nullPtr
  | .boolean => kind == .bool
  | .character => kind == .char
  | .integer => kind.isInteger
  | .fixed => kind == .fixed
  | .float => kind == .float
  | .arithmetic => kind.isArithmetic
  | .scalar => kind.isScalar
  | .aggregate => kind.isAggregate
  | .array => kind == .array
  | .pointer => kind == .pointer
  | .leftRef => kind == .leftRef
  | .rightRef => kind == .rightRef
  | .reference => kind.isReference
  | .function => kind.isFunction
  | .staticFunction => kind == .function
  | .memberFunction => kind == .memberFunction
  | .memberPointer => kind == .memberPointer
  | .tuple => kind == .tuple
  | .struct => kind == .struct
  | .union => kind == .union
  | .classType => kind.isClass
  | .enum => kind == .enum
  | .object => kind.isObject
  | .named => kind.isNamed
  | .derived => kind.isDerived

/-- A question that the builtin type behind answers. -/
inductive BuiltinTrait where
  | signed
  | unsigned
  | saturating
  | accum
  | fract
  | complex
  | imaginary
  | softBool
  | wideChar
  | plainChar
deriving DecidableEq, Repr

def BuiltinTrait.holds (builtin : Builtin) : BuiltinTrait → Bool
  | .signed => builtin.isSigned
  | .unsigned => builtin.isUnsigned
  | .saturating => match builtin with
    | .fixed fixed => fixed.saturating
    | _ => false
  | .accum => match builtin with
    | .fixed fixed => fixed.form == .accum
    | _ => false
  | .fract => match builtin with
    | .fixed fixed => fixed.form == .fract
    | _ => false
  | .complex => match builtin with
    | .float float => float.form == .complex
    | _ => false
  | .imaginary => match builtin with
    | .float float => float.form == .imaginary
    | _ => false
  | .softBool => builtin == .bool .soft
  | .wideChar => match builtin with
    | .char char => char.wide
    | _ => false
  | .plainChar => match builtin with
    | .char char => char.sign == .plain
    | _ => false

/-- A yes-or-no question about a type. -/
inductive Trait where
  | ofKind (trait : KindTrait)
  | ofBuiltin (trait : BuiltinTrait)
  | bitfield
  /-- Arithmetic and neither complex nor imaginary. -/
  | real
  | realFloat
  | scopedEnum
  | complete
  | incompleteArray
  | fixedArray
  | variableArray
  | variablyModified
  /-- The size in bytes is constant and known. -/
  | sized
  | variadic
  | farPointer
  /-- A scalar smaller than a word. -/
  | subWord
  | qualified
  | const
  | volatile
  | restrict
  | atomic
deriving DecidableEq, Repr

namespace Store

/-- The kind that a type is classified by, for a bit-field that of its base. -/
def seenKind (store : Store) (type : TypeId) : Except Failure Kind := do
  store.kind (← store.withoutBitfield type)

def hasKindTrait (store : Store) (type : TypeId) (trait : KindTrait) : Except Failure Bool := do
  return trait.holds (← store.seenKind type)

def hasBuiltinTrait (store : Store) (type : TypeId) (trait : BuiltinTrait) :
    Except Failure Bool := do
  return (← store.builtinBehind? type).any fun builtin => trait.holds builtin

def isReal (store : Store) (type : TypeId) : Except Failure Bool := do
  return (← store.hasKindTrait type .arithmetic) && !(← store.hasBuiltinTrait type .complex) &&
    !(← store.hasBuiltinTrait type .imaginary)

/-- Whether a type is a finished enum declared as scoped. A bit-field over one is not. -/
def isScopedEnum (store : Store) (type : TypeId) : Except Failure Bool := do
  if ← store.hasKindTrait type .enum then
    match store.enumBody type with
    | .ok body => return body.flavor == .scoped
    | .error _ => return false
  else return false

/-- Whether the size is constant and known, and passes the test. -/
def sizePasses (store : Store) (type : TypeId) (test : Count → Bool) : Except Failure Bool :=
  match store.size type with
  | .ok size => return test size
  | .error (.fault fault) => throw (.fault fault)
  | .error _ => return false

/-- The answer to a question about a type. -/
def has (store : Store) (type : TypeId) : Trait → Except Failure Bool
  | .ofKind trait => store.hasKindTrait type trait
  | .ofBuiltin trait => store.hasBuiltinTrait type trait
  | .bitfield => do return (← store.kind type) == .bitfield
  | .real => store.isReal type
  | .realFloat => do return (← store.hasKindTrait type .float) && (← store.isReal type)
  | .scopedEnum => store.isScopedEnum type
  | .complete => store.isComplete type
  | .incompleteArray => do return (← store.shape type).extent? == some .incomplete
  | .fixedArray => do
      match (← store.shape type).extent? with
      | some (.fixed _) => return true
      | _ => return false
  | .variableArray => do return (← store.shape type).extent?.any (·.isVariable)
  | .variablyModified => store.isVariablyModified type
  | .sized => store.sizePasses type fun _ => true
  | .variadic => store.isVariadic type
  | .farPointer => do
      match ← store.shape type with
      | .pointer base => return (← store.qual base).space.storage == .far
      | _ => return false
  | .subWord => do
      if ← store.hasKindTrait type .scalar then
        store.sizePasses type fun size => size < store.target.wordBytes
      else return false
  | .qualified => do return !(← store.qual type).isNone
  | .const => do return (← store.qual type).isConst
  | .volatile => do return (← store.qual type).isVolatile
  | .restrict => do return (← store.qual type).isRestrict
  | .atomic => do return (← store.qual type).isAtomic

end Store

/-- The answer to a question about a type. Completeness is remembered for tuples. -/
def Build.has (type : TypeId) : Trait → Build Bool
  | .complete => Build.isComplete type
  | trait => query (·.has type trait)

end TypeGraph

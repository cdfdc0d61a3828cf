import TypeGraph.Builtin.Basic
import TypeGraph.Qualifier

/-!
The shape of a type: what it is built from, apart from its qualifiers. A shape leaves open how the
types inside it, its parameter lists and its names are given, so that one definition serves for
numbered types and for types written out in full.
-/

namespace TypeGraph

/-- Number of elements of an array. -/
inductive Extent where
  /-- A constant number. -/
  | fixed (count : Count)
  /-- No number was given. -/
  | incomplete
  /-- A number computed at run time. -/
  | variable (expr : ExprId)
  /-- A number computed at run time that is not known yet. -/
  | unspecified
deriving DecidableEq, Repr

namespace Extent

def isVariable : Extent → Bool
  | .variable _ | .unspecified => true
  | .fixed _ | .incomplete => false

/-- Whether an array of this extent can have a size. -/
def isComplete : Extent → Bool
  | .fixed _ | .variable _ => true
  | .incomplete | .unspecified => false

end Extent

/-- Calling convention of a function. -/
inductive Convention where
  | action
  | asmFunc
  | langAcs
  | langAsm
  | langC
  | langCxx
  | langDs
  | native
  /-- Script with a name. -/
  | script
  /-- Script with a number. -/
  | scriptI
  /-- Script named by a string. -/
  | scriptS
  | special
  | stdCall
  | synAcc
deriving DecidableEq, Repr

namespace Convention

/-- Every convention, in order. -/
def all : List Convention :=
  [.action, .asmFunc, .langAcs, .langAsm, .langC, .langCxx, .langDs, .native, .script, .scriptI,
    .scriptS, .special, .stdCall, .synAcc]

def tag : Convention → String
  | .action => "action"
  | .asmFunc => "asmfunc"
  | .langAcs => "acs"
  | .langAsm => "asm"
  | .langC => "c"
  | .langCxx => "cxx"
  | .langDs => "ds"
  | .native => "native"
  | .script => "script"
  | .scriptI => "scripti"
  | .scriptS => "scripts"
  | .special => "special"
  | .stdCall => "stdcall"
  | .synAcc => "synacc"

/-- Whether the callee is a script and not a function. -/
def isScript : Convention → Bool
  | .script | .scriptI | .scriptS => true
  | _ => false

theorem mem_all (conv : Convention) : conv ∈ all := by cases conv <;> decide

instance : Tagged Convention where
  all := all
  tag := tag
  mem_all := mem_all
  nodup_tags := by decide +kernel

end Convention

/-- An ordered list of types, perhaps open at the end. -/
structure Params (τ : Type) where
  types : List τ
  variadic : Bool
deriving DecidableEq, Repr

namespace Params

variable {τ τ' : Type}

/-- The closed list without types. -/
def empty : Params τ := ⟨[], false⟩

/-- Replaces every type, from left to right. -/
def mapM {m : Type → Type} [Monad m] (f : τ → m τ') (params : Params τ) : m (Params τ') := do
  return ⟨← params.types.mapM f, params.variadic⟩

end Params

/-- What a type is built from. The types inside it are given as `τ`, its parameter lists as `π`
and its names as `ν`. -/
inductive Shape (τ π ν : Type) where
  | builtin (type : Builtin)
  | array (base : τ) (extent : Extent)
  /-- `bits` bits that start `offset` bits into a unit of type `base`. -/
  | bitfield (base : τ) (bits offset : UInt32)
  | pointer (base : τ)
  | leftRef (base : τ)
  | rightRef (base : τ)
  | function (ret : τ) (params : π) (conv : Convention)
  | memberFunction (owner ret : τ) (params : π) (conv : Convention)
  | memberPointer (owner base : τ)
  | tuple (parts : π)
  /-- A struct or a union, told apart by its name. -/
  | classType (name : ν) (isStruct : Bool)
  | enumType (name : ν)
deriving DecidableEq, Repr

namespace Shape

variable {τ τ' π π' ν ν' : Type}

def kind : Shape τ π ν → Kind
  | .builtin type => type.kind
  | .array .. => .array
  | .bitfield .. => .bitfield
  | .pointer _ => .pointer
  | .leftRef _ => .leftRef
  | .rightRef _ => .rightRef
  | .function .. => .function
  | .memberFunction .. => .memberFunction
  | .memberPointer .. => .memberPointer
  | .tuple _ => .tuple
  | .classType _ true => .struct
  | .classType _ false => .union
  | .enumType _ => .enum

/-- The type that a derived shape is built on: the element of an array, what a pointer or reference
leads to, the result of a function. -/
def base? : Shape τ π ν → Option τ
  | .array base _ | .bitfield base _ _ | .pointer base | .leftRef base | .rightRef base
  | .memberPointer _ base => some base
  | .function ret _ _ | .memberFunction _ ret _ _ => some ret
  | .builtin _ | .tuple _ | .classType _ _ | .enumType _ => none

/-- The class that a member belongs to. -/
def owner? : Shape τ π ν → Option τ
  | .memberFunction owner _ _ _ | .memberPointer owner _ => some owner
  | _ => none

def builtin? : Shape τ π ν → Option Builtin
  | .builtin type => some type
  | _ => none

def extent? : Shape τ π ν → Option Extent
  | .array _ extent => some extent
  | _ => none

/-- Width and offset of a bit-field. -/
def bits? : Shape τ π ν → Option (UInt32 × UInt32)
  | .bitfield _ bits offset => some (bits, offset)
  | _ => none

/-- The parameter list of a function or the components of a tuple. -/
def params? : Shape τ π ν → Option π
  | .function _ params _ | .memberFunction _ _ params _ | .tuple params => some params
  | _ => none

/-- The components of a tuple. -/
def parts? : Shape τ π ν → Option π
  | .tuple parts => some parts
  | _ => none

def conv? : Shape τ π ν → Option Convention
  | .function _ _ conv | .memberFunction _ _ _ conv => some conv
  | _ => none

def name? : Shape τ π ν → Option ν
  | .classType name _ | .enumType name => some name
  | _ => none

/-- Replaces every type and parameter list, from left to right, and every name. -/
def mapM {m : Type → Type} [Monad m] (f : τ → m τ') (g : π → m π') (h : ν → ν') :
    Shape τ π ν → m (Shape τ' π' ν')
  | .builtin type => return .builtin type
  | .array base extent => return .array (← f base) extent
  | .bitfield base bits offset => return .bitfield (← f base) bits offset
  | .pointer base => return .pointer (← f base)
  | .leftRef base => return .leftRef (← f base)
  | .rightRef base => return .rightRef (← f base)
  | .function ret params conv => return .function (← f ret) (← g params) conv
  | .memberFunction owner ret params conv =>
      return .memberFunction (← f owner) (← f ret) (← g params) conv
  | .memberPointer owner base => return .memberPointer (← f owner) (← f base)
  | .tuple parts => return .tuple (← g parts)
  | .classType name isStruct => return .classType (h name) isStruct
  | .enumType name => return .enumType (h name)

end Shape

end TypeGraph

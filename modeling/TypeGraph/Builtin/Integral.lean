import TypeGraph.Target

/-!
The builtin boolean, character and integer types: their sizes on each machine, conversion ranks,
tags and source spellings.
-/

namespace TypeGraph

/-- A hard boolean is stored as zero or one; a soft one fills a word and any value but zero is
true. -/
inductive BoolType where
  | hard
  | soft
deriving DecidableEq, Repr

namespace BoolType

def all : List BoolType := [.hard, .soft]

def size (target : Target) : BoolType → Count
  | .hard => target.select 1 1
  | .soft => target.select 1 4

def tag : BoolType → String
  | .hard => "bool"
  | .soft => "sbool"

def name : BoolType → String
  | .hard => "_Bool"
  | .soft => "__bool"

end BoolType

/-- How a character type is signed. A plain one differs from both others and counts as signed. -/
inductive CharSign where
  | plain
  | signed
  | unsigned
deriving DecidableEq, Repr

/-- A narrow or wide character type. -/
structure CharType where
  wide : Bool
  sign : CharSign
deriving DecidableEq, Repr

namespace CharType

def all : List CharType :=
  [false, true].flatMap fun wide => [.plain, .signed, .unsigned].map fun sign => ⟨wide, sign⟩

def size (target : Target) (type : CharType) : Count :=
  if type.wide then target.select 1 4 else 1

def isSigned (type : CharType) : Bool := type.sign != .unsigned

/-- Narrow characters rank below the short integers, wide ones with the ordinary integers. -/
def rank (type : CharType) : Nat := if type.wide then 3 else 1

def tag (type : CharType) : String :=
  let sign := match type.sign with
    | .plain => ""
    | .signed => "s"
    | .unsigned => "u"
  sign ++ if type.wide then "wchar" else "char"

def name (type : CharType) : String :=
  let sign := match type.sign with
    | .plain => ""
    | .signed => "signed "
    | .unsigned => "unsigned "
  sign ++ if type.wide then "wchar_t" else "char"

end CharType

/-- The four widths of integer. -/
inductive IntWidth where
  | short
  | int
  | long
  | longLong
deriving DecidableEq, Repr

/-- An integer type. -/
structure IntType where
  width : IntWidth
  signed : Bool
deriving DecidableEq, Repr

namespace IntType

def all : List IntType :=
  [.short, .int, .long, .longLong].flatMap fun width => [true, false].map fun signed =>
    ⟨width, signed⟩

def size (target : Target) (type : IntType) : Count :=
  match type.width with
  | .short => target.select 1 2
  | .int => target.select 1 4
  | .long => target.select 2 8
  | .longLong => target.select 2 8

def rank (type : IntType) : Nat :=
  match type.width with
  | .short => 2
  | .int => 3
  | .long => 4
  | .longLong => 5

/-- The signed type of the same width. -/
def toSigned (type : IntType) : IntType := { type with signed := true }

/-- The unsigned type of the same width. -/
def toUnsigned (type : IntType) : IntType := { type with signed := false }

def tag (type : IntType) : String :=
  let width := match type.width with
    | .short => "short"
    | .int => "int"
    | .long => "long"
    | .longLong => "llong"
  (if type.signed then "" else "u") ++ width

def name (type : IntType) : String :=
  let width := match type.width with
    | .short => "short"
    | .int => "int"
    | .long => "long"
    | .longLong => "long long"
  (if type.signed then "" else "unsigned ") ++ width

end IntType

end TypeGraph

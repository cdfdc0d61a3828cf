import TypeGraph.Target

/-!
The builtin fixed-point and floating types: their sizes on each machine, the split of a
fixed-point value into bits, tags and source spellings.
-/

namespace TypeGraph

/-- A fract is a pure fraction; an accum has integral bits as well. -/
inductive FixedForm where
  | fract
  | accum
deriving DecidableEq, Repr

inductive FixedSize where
  | short
  | normal
  | long
deriving DecidableEq, Repr

/-- A fixed-point type. -/
structure FixedType where
  form : FixedForm
  size : FixedSize
  saturating : Bool
  signed : Bool
deriving DecidableEq, Repr

/-- How the bits of a fixed-point value are divided. -/
structure FixedBits where
  sign : Count
  integral : Count
  fraction : Count
deriving DecidableEq, Repr

/-- Width of the whole value. -/
def FixedBits.total (bits : FixedBits) : Count := bits.sign + bits.integral + bits.fraction

namespace FixedType

def all : List FixedType :=
  [.fract, .accum].flatMap fun form => [.short, .normal, .long].flatMap fun size =>
    [false, true].flatMap fun saturating => [true, false].map fun signed =>
      ⟨form, size, saturating, signed⟩

def bytes (target : Target) (type : FixedType) : Count :=
  match type.form, type.size with
  | .fract, .short => target.select 1 1
  | .fract, .normal => target.select 1 2
  | .fract, .long => target.select 2 4
  | .accum, .short => target.select 1 2
  | .accum, .normal => target.select 1 4
  | .accum, .long => target.select 2 8

/-- An accum gives half of its bits to the fraction; a fract all but the sign. -/
def bits (target : Target) (type : FixedType) : FixedBits :=
  let total := type.bytes target * target.byteBits
  let sign : Count := if type.signed then 1 else 0
  match type.form with
  | .fract => ⟨sign, 0, total - sign⟩
  | .accum => ⟨sign, total - total / 2 - sign, total / 2⟩

/-- The type that a saturating one is derived from: the same without saturation. -/
def base? (type : FixedType) : Option FixedType :=
  if type.saturating then some { type with saturating := false } else none

/-- The same type with or without saturation. -/
def withSaturation (type : FixedType) (saturating : Bool) : FixedType :=
  { type with saturating }

def tag (type : FixedType) : String :=
  let saturating := if type.saturating then "sat_" else ""
  let sign := if type.signed then "" else "u"
  let size := match type.size with
    | .short => "short_"
    | .normal => ""
    | .long => "long_"
  let form := match type.form with
    | .fract => "fract"
    | .accum => "accum"
  saturating ++ sign ++ size ++ form

def name (type : FixedType) : String :=
  let saturating := if type.saturating then "_Sat " else ""
  let sign := if type.signed then "" else "unsigned "
  let size := match type.size with
    | .short => "short "
    | .normal => ""
    | .long => "long "
  let form := match type.form with
    | .fract => "_Fract"
    | .accum => "_Accum"
  saturating ++ sign ++ size ++ form

end FixedType

inductive FloatForm where
  | real
  | complex
  | imaginary
deriving DecidableEq, Repr

inductive FloatSize where
  | float
  | double
  | longDouble
deriving DecidableEq, Repr

/-- A floating type. -/
structure FloatType where
  form : FloatForm
  size : FloatSize
deriving DecidableEq, Repr

namespace FloatType

def all : List FloatType :=
  [.real, .complex, .imaginary].flatMap fun form => [.float, .double, .longDouble].map fun size =>
    ⟨form, size⟩

/-- Bytes of the real part. -/
def realBytes (target : Target) (type : FloatType) : Count :=
  match type.size with
  | .float => target.select 1 4
  | .double => target.select 2 8
  | .longDouble => target.select 2 8

/-- A complex value is two reals; an imaginary one is stored as one. -/
def bytes (target : Target) (type : FloatType) : Count :=
  match type.form with
  | .complex => type.realBytes target * 2
  | .real | .imaginary => type.realBytes target

/-- Values are aligned as their real part. -/
def align (target : Target) (type : FloatType) : Count :=
  target.scalarAlign (type.realBytes target)

/-- The real type that a complex or imaginary one is derived from. -/
def base? (type : FloatType) : Option FloatType :=
  if type.form = .real then none else some ⟨.real, type.size⟩

def tag (type : FloatType) : String :=
  let form := match type.form with
    | .real => ""
    | .complex => "c"
    | .imaginary => "i"
  let size := match type.size with
    | .float => "float"
    | .double => "double"
    | .longDouble => "ldouble"
  form ++ size

def name (type : FloatType) : String :=
  let form := match type.form with
    | .real => ""
    | .complex => "_Complex "
    | .imaginary => "_Imaginary "
  let size := match type.size with
    | .float => "float"
    | .double => "double"
    | .longDouble => "long double"
  form ++ size

end FloatType

end TypeGraph

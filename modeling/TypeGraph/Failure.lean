import TypeGraph.Id
import TypeGraph.Number
import TypeGraph.Qualifier

/-!
Why a request fails, and the wording of each cause. A request can be refused because of the types
it names, because of the archive it reads, or because a handle does not belong to the store.
-/

namespace TypeGraph

/-- A request that the types it names do not allow. -/
inductive TypeError where
  /-- The type is not complete yet. -/
  | incomplete (type : TypeId)
  /-- Void, label and function types have no size. -/
  | noSize (type : TypeId)
  /-- The size of a variable-length array is only known when the program runs. -/
  | variableSize (type : TypeId)
  | noBaseType (type : TypeId)
  | alreadyComplete (type : TypeId)
  | duplicateEnumValue (type : TypeId) (name : String)
  /-- A placeholder address space cannot be written out. -/
  | internalSpace (storage : Storage)
  | notClass (type : TypeId)
  | notEnum (type : TypeId)
  /-- Only booleans, characters and integers underlie an enum. -/
  | invalidEnumBase (type base : TypeId)
  | variadicTuple
  /-- The size does not fit in 64 bits. -/
  | sizeOverflow (type : TypeId)
deriving DecidableEq, Repr

/-- How a type is written in messages. -/
def TypeId.text (type : TypeId) : String := "#" ++ toString type.index

/-- How a value known only at run time is written. -/
def ExprId.text (expr : ExprId) : String := "%e" ++ toString expr.index

namespace TypeError

def message : TypeError → String
  | .incomplete type => "type " ++ type.text ++ " is incomplete"
  | .noSize type => "type " ++ type.text ++ " has no size"
  | .variableSize type => "type " ++ type.text ++ " has no constant size"
  | .noBaseType type => "type " ++ type.text ++ " has no base type"
  | .alreadyComplete type => "type " ++ type.text ++ " is already complete"
  | .duplicateEnumValue type name =>
      "duplicate enumerator `" ++ name ++ "` in type " ++ type.text
  | .internalSpace storage =>
      "internal address space " ++ storage.name ++ " cannot be encoded"
  | .notClass type => "type " ++ type.text ++ " is not a class type"
  | .notEnum type => "type " ++ type.text ++ " is not an enumerated type"
  | .invalidEnumBase type base =>
      "type " ++ base.text ++ " cannot underlie enumerated type " ++ type.text
  | .variadicTuple => "tuple components cannot be variadic"
  | .sizeOverflow type => "size of type " ++ type.text ++ " overflows"

end TypeError

/-- A fault in the bytes of an archive's payload. -/
inductive PayloadError where
  /-- The bytes end inside an item. -/
  | endOfBuffer
  /-- A number is longer or larger than its width allows. -/
  | badVarint
  /-- A boolean is neither zero nor one. -/
  | badBool
  | badUtf8
  /-- No kind of item has this number. -/
  | unknownVariant
deriving DecidableEq, Repr

namespace PayloadError

def message : PayloadError → String
  | .endOfBuffer => "Hit the end of buffer, expected more data"
  | .badVarint => "Found a varint that didn't terminate. Is the usize too big for this platform?"
  | .badBool => "Found a bool that wasn't 0 or 1"
  | .badUtf8 => "Tried to parse invalid utf-8"
  | .unknownVariant => "Serde Deserialization Error"

end PayloadError

/-- The four bytes that an archive starts with. -/
abbrev Magic := Vector UInt8 4

/-- An archive that does not hold what is read from it. -/
inductive ArchiveError where
  | badMagic (found : Magic)
  | version (expected found : UInt32)
  | checksum (expected found : UInt32)
  | truncated (expected found : Nat)
  | decode (cause : PayloadError)
  | unexpectedItem (expected found : String)
  | unexpectedEnd (expected : String)
  | unknownTag (tag : String)
  | outOfRange (value : Count) (width : String)
deriving DecidableEq, Repr

/-- Eight hexadecimal digits. -/
def hexWord (word : UInt32) : String :=
  let digits := Nat.toDigits 16 word.toNat
  "0x" ++ String.ofList (List.replicate (8 - digits.length) '0' ++ digits)

namespace ArchiveError

def message : ArchiveError → String
  | .badMagic found =>
      let bytes := found.toList.map fun byte => toString byte.toNat
      "invalid archive magic [" ++ ", ".intercalate bytes ++ "]"
  | .version expected found =>
      "unsupported archive version " ++ toString found ++ " (expected " ++ toString expected ++ ")"
  | .checksum expected found =>
      "archive checksum mismatch: header says " ++ hexWord expected ++ ", payload hashes to " ++
        hexWord found
  | .truncated expected found =>
      "archive truncated: need " ++ toString expected ++ " bytes, have " ++ toString found
  | .decode cause => "archive payload decode error: " ++ cause.message
  | .unexpectedItem expected found => "expected " ++ expected ++ " item, found " ++ found
  | .unexpectedEnd expected => "unexpected end of archive while reading " ++ expected
  | .unknownTag tag => "unknown kind tag `" ++ tag ++ "`"
  | .outOfRange value width => "value " ++ toString value ++ " does not fit in " ++ width

end ArchiveError

/-- A request that names something the store never gave out. -/
inductive Fault where
  | unknownType (type : TypeId)
  | unknownParamSet (set : ParamSetId)
  | unknownPath (path : PathId)
  | unknownKeyword (keyword : Keyword)
  | divisionByZero
  /-- A class body was completed for a type that is no class here, or an enum body for no enum. -/
  | notAggregate (type : TypeId)
deriving DecidableEq, Repr

namespace Fault

/-- Wording of a fault. Those without one are answered without words. -/
def message? : Fault → Option String
  | .unknownType type => some <| "TypeContext: type " ++ type.text ++
      " not found (ids must come from the context that created them)"
  | .unknownParamSet set => some <| "TypeContext: parameter set " ++ toString set.index ++
      " not found (ids must come from the context that created them)"
  | .unknownPath path => some <| "Interner: context key " ++ toString path.index ++
      " not found (keys must come from the interner that created them)"
  | .unknownKeyword _ | .divisionByZero | .notAggregate _ => none

end Fault

/-- Why a request failed. -/
inductive Failure where
  | type (error : TypeError)
  | archive (error : ArchiveError)
  | fault (fault : Fault)
deriving DecidableEq, Repr

/-- The value, or the failure where there is none. -/
def orFail {α : Type} (failure : Failure) : Option α → Except Failure α
  | some a => .ok a
  | none => .error failure

end TypeGraph

import TypeGraph.SizeExpr
import TypeGraph.Store.View

/-!
Sizes and alignments. Every size comes from one in bytes, which is exact: what does not fit in 64
bits is refused.
-/

namespace TypeGraph

/-- A part that is incomplete makes the whole incomplete; other refusals name the part. -/
def Failure.blame (whole : TypeId) : Failure → Failure
  | .type (.incomplete _) => .type (.incomplete whole)
  | failure => failure

namespace Store

/-- Size of a pointer to `target`: two words if that lies in far storage, else one. -/
def pointerSize (store : Store) (target : TypeId) : Except Failure Count := do
  let words : Count := if (← store.qual target).space.storage = .far then 2 else 1
  return words * store.target.wordBytes

/-- The builtin type that the enumerators of a finished enum are stored as. -/
def enumStorage (store : Store) (type : TypeId) : Except Failure Builtin := do
  let base := (← store.enumBody type).base
  orFail (.type (.noSize base)) (← store.builtinOf? base)

/-- Alignment in bytes. A variable-length array is aligned as its element. -/
def align (store : Store) (type : TypeId) : Except Failure Count := do
  match ← store.view type with
  | .builtin builtin => orFail (.type (.noSize type)) (builtin.align? store.target)
  | .array base extent =>
      if extent.isComplete then store.align base.type else throw (.type (.incomplete type))
  | .bitfield base _ _ => store.align base.type
  | .pointer base | .leftRef base | .rightRef base =>
      return store.target.scalarAlign (← store.pointerSize base.type)
  | .memberPointer _ _ => return store.target.scalarAlign store.target.wordBytes
  | .function .. | .memberFunction .. => throw (.type (.noSize type))
  | .tuple parts =>
      parts.types.foldlM (fun most part => do
        return max most (← (store.align part.type).mapError (·.blame type))) 1
  | .classType .. => return (← store.classBody type).align
  | .enumType _ =>
      let builtin ← store.enumStorage type
      orFail (.type (.noSize type)) (builtin.align? store.target)
termination_by type.index
decreasing_by all_goals exact Below.older _

/-- Size in bytes, where it is constant. -/
def size (store : Store) (type : TypeId) : Except Failure Count := do
  match ← store.view type with
  | .builtin builtin => orFail (.type (.noSize type)) (builtin.size? store.target)
  | .array base extent =>
      match extent with
      | .fixed count =>
          orFail (.type (.sizeOverflow type)) (Count.mul? count (← store.size base.type))
      | .incomplete | .unspecified => throw (.type (.incomplete type))
      | .variable _ => throw (.type (.variableSize type))
  | .bitfield base bits _ =>
      let unit ← store.size base.type
      let bytes := Count.ceilDiv bits.toUInt64 store.target.byteBits
      if unit = 0 then return bytes
      else orFail (.type (.sizeOverflow type)) (Count.roundUp? bytes unit)
  | .pointer base | .leftRef base | .rightRef base => store.pointerSize base.type
  | .memberPointer _ _ => return store.target.wordBytes
  | .function .. | .memberFunction .. => throw (.type (.noSize type))
  | .tuple parts =>
      let total ← parts.types.foldlM (fun total part => do
        let size ← (store.size part.type).mapError (·.blame type)
        orFail (.type (.sizeOverflow type)) (Count.add? total size)) 0
      orFail (.type (.sizeOverflow type)) (store.target.roundToWord? total)
  | .classType .. => return (← store.classBody type).size
  | .enumType _ =>
      let builtin ← store.enumStorage type
      orFail (.type (.noSize type)) (builtin.size? store.target)
termination_by type.index
decreasing_by all_goals exact Below.older _

/-- Size in pointer units, where it is constant. -/
def sizePoints (store : Store) (type : TypeId) : Except Failure Count := do
  return store.target.points (← store.size type)

/-- Size in words, where it is constant. -/
def sizeWords (store : Store) (type : TypeId) : Except Failure Count := do
  return store.target.words (← store.size type)

/-- Width of a value in bits. That of a bit-field is the one it was declared with. -/
def sizeBits (store : Store) (type : TypeId) : Except Failure Count := do
  match (← store.shape type).bits? with
  | some (bits, _) => return bits.toUInt64
  | none =>
      orFail (.type (.sizeOverflow type))
        (Count.mul? (← store.size type) store.target.byteBits)

/-- Size in bytes, left to run time for variable-length arrays. -/
def deferredSize (store : Store) (type : TypeId) : Except Failure SizeExpr := do
  match ← store.view type with
  | .array base extent =>
      match extent with
      | .fixed count =>
          orFail (.type (.sizeOverflow type))
            (SizeExpr.mul? (.const count) (← store.deferredSize base.type))
      | .variable expr =>
          orFail (.type (.sizeOverflow type))
            (SizeExpr.mul? (← store.deferredSize base.type) (.runtime expr))
      | .incomplete | .unspecified => throw (.type (.incomplete type))
  | _ => return .const (← store.size type)
termination_by type.index
decreasing_by all_goals exact Below.older _

/-- Size in pointer units, left to run time for variable-length arrays. -/
def deferredPoints (store : Store) (type : TypeId) : Except Failure SizeExpr := do
  let bytes ← store.deferredSize type
  match bytes.const? with
  | some value => return .const (store.target.points value)
  | none => return bytes

/-- Size in words, left to run time for variable-length arrays. -/
def deferredWords (store : Store) (type : TypeId) : Except Failure SizeExpr := do
  let bytes ← store.deferredSize type
  (bytes.divide store.target.wordBytes).mapError fun _ => .fault .divisionByZero

/-- How the bits of a fixed-point type are divided. -/
def fixedBits? (store : Store) (type : TypeId) : Except Failure (Option FixedBits) := do
  match ← store.builtinBehind? type with
  | some (.fixed fixed) => return some (fixed.bits store.target)
  | _ => return none

/-- Conversion rank of booleans, characters, integers and finished enums. -/
def integerRank? (store : Store) (type : TypeId) : Except Failure (Option Nat) := do
  return (← store.builtinBehind? type).bind Builtin.rank?

end Store

end TypeGraph

import TypeGraph.Number

/-!
The two machine profiles that types are laid out for, and the units in which they count.
-/

namespace TypeGraph

/--
The machine a program is laid out for.

On the narrow one every addressable unit is a whole 32-bit cell, so bytes, pointer units and words
are the same. The wide one has bytes of eight bits and words of four bytes.
-/
inductive Target where
  | narrow
  | wide
deriving DecidableEq, Repr

namespace Target

/-- Chooses between the value for the narrow and the one for the wide machine. -/
def select {α : Type} (target : Target) (narrow wide : α) : α :=
  match target with
  | .narrow => narrow
  | .wide => wide

/-- Bits in a byte. -/
def byteBits (target : Target) : Count := target.select 32 8

/-- Bytes in a word. -/
def wordBytes (target : Target) : Count := target.select 1 4

/-- Rounds a number of bytes up to whole words. -/
def roundToWord? (target : Target) (bytes : Count) : Option Count :=
  Count.roundUp? bytes target.wordBytes

/-- Pointer units that `bytes` take. Pointers address bytes on both machines. -/
def points (_ : Target) (bytes : Count) : Count := bytes

/-- Words that `bytes` take, the last one perhaps in part. -/
def words (target : Target) (bytes : Count) : Count :=
  Count.ceilDiv bytes target.wordBytes

/-- Natural alignment of a scalar: its size, at least one byte and at most a word. -/
def scalarAlign (target : Target) (bytes : Count) : Count :=
  if bytes < 1 then 1 else if target.wordBytes < bytes then target.wordBytes else bytes

theorem wordBytes_pos (target : Target) : 0 < target.wordBytes.toNat := by
  cases target <;> decide

theorem wordBytes_ne_zero (target : Target) : target.wordBytes ≠ 0 := by
  cases target <;> decide

end Target

end TypeGraph

/-!
The cyclic redundancy check of 32 bits that archives carry: the remainder of the bytes by a fixed
polynomial, lowest bit first, with the remainder inverted at both ends.
-/

namespace TypeGraph.Checksum

/-- The polynomial, lowest bit first. -/
def polynomial : UInt32 := 0xEDB88320

/-- The remainder after one more bit. -/
def shift (remainder : UInt32) : UInt32 :=
  if remainder &&& 1 = 1 then (remainder >>> 1) ^^^ polynomial else remainder >>> 1

/-- The remainder after eight more bits. -/
def shiftByte (remainder : UInt32) : UInt32 :=
  shift (shift (shift (shift (shift (shift (shift (shift remainder)))))))

/-- The remainder after one more byte. -/
def absorb (remainder : UInt32) (byte : UInt8) : UInt32 := shiftByte (remainder ^^^ byte.toUInt32)

/-- The check of a list of bytes. -/
def ofBytes (bytes : List UInt8) : UInt32 := bytes.foldl absorb 0xFFFFFFFF ^^^ 0xFFFFFFFF

end TypeGraph.Checksum

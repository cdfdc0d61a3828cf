import TypeGraph.Failure

/-!
Numbers in bytes. A number is written in groups of seven bits, lowest first; every byte but the
last has its high bit set. Signed numbers are folded onto the naturals first.
-/

namespace TypeGraph

/-- Takes bytes off the front of a list. -/
abbrev ByteReader := EStateM PayloadError (List UInt8)

/-- The next byte. -/
def ByteReader.byte : ByteReader UInt8 := do
  match ← get with
  | [] => throw .endOfBuffer
  | byte :: rest =>
      set rest
      return byte

namespace Varint

/-- A number in as few bytes as it needs. -/
def write (n : Nat) : List UInt8 :=
  if n < 128 then [UInt8.ofNat n] else UInt8.ofNat (n % 128 + 128) :: write (n / 128)

/-- How long a number of a certain width may be: its bytes, and the largest last one of those. -/
structure Width where
  bytes : Nat
  last : Nat

/-- Numbers of 32 bits. -/
def word32 : Width := ⟨5, 15⟩

/-- Numbers of 64 bits. -/
def word64 : Width := ⟨10, 1⟩

/-- Numbers of 128 bits. -/
def word128 : Width := ⟨19, 3⟩

/-- A number of at most `allowed` bytes. It may have leading zeros, but no more bytes than that,
and where it takes them all the last one is at most `last`. -/
def readUpTo (last : Nat) : Nat → ByteReader Nat
  | 0 => throw .badVarint
  | allowed + 1 => do
      let byte ← ByteReader.byte
      if byte.toNat < 128 then
        if allowed = 0 ∧ last < byte.toNat then throw .badVarint else return byte.toNat
      else return (byte.toNat - 128) + 128 * (← readUpTo last allowed)

/-- A number of the given width. -/
def read (width : Width) : ByteReader Nat := readUpTo width.last width.bytes

end Varint

namespace Zigzag

/-- Folds the integers onto the naturals: 0, -1, 1, -2, 2 become 0, 1, 2, 3, 4. -/
def fold (n : Int) : Nat := if 0 ≤ n then 2 * n.toNat else 2 * (-n).toNat - 1

/-- The integer that was folded onto `n`. -/
def unfold (n : Nat) : Int := if n % 2 = 0 then (n / 2 : Nat) else -((n + 1) / 2 : Nat)

theorem unfold_fold (n : Int) : Zigzag.unfold (fold n) = n := by
  unfold fold Zigzag.unfold
  split <;> split <;> omega

end Zigzag

end TypeGraph

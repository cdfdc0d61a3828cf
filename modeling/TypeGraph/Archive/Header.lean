import TypeGraph.Archive.Checksum
import TypeGraph.Archive.Payload

/-!
Whole archives: sixteen bytes of header, which hold a mark, a version, a check and a length, and
then the payload.
-/

namespace TypeGraph

/-- A number of 32 bits in four bytes, lowest first. -/
def littleEndian (word : UInt32) : List UInt8 :=
  [word.toUInt8, (word >>> 8).toUInt8, (word >>> 16).toUInt8, (word >>> 24).toUInt8]

/-- The number of 32 bits in four bytes, lowest first. -/
def ofLittleEndian (b₀ b₁ b₂ b₃ : UInt8) : UInt32 :=
  b₀.toUInt32 ||| (b₁.toUInt32 <<< 8) ||| (b₂.toUInt32 <<< 16) ||| (b₃.toUInt32 <<< 24)

/-- What an archive says of its payload. -/
structure Header where
  magic : Magic
  version : UInt32
  checksum : UInt32
  payloadSize : UInt32
deriving DecidableEq, Repr

namespace Header

/-- The bytes that every archive starts with: `VMCT`. -/
def magicBytes : Magic := #v[0x56, 0x4D, 0x43, 0x54]

/-- The version written. -/
def currentVersion : UInt32 := 2

/-- Bytes in a header. -/
def byteSize : Nat := 16

/-- The header of a payload. -/
def forPayload (payload : List UInt8) : Header where
  magic := magicBytes
  version := currentVersion
  checksum := Checksum.ofBytes payload
  payloadSize := UInt32.ofNat payload.length

def encode (header : Header) : List UInt8 :=
  header.magic.toList ++ littleEndian header.version ++ littleEndian header.checksum ++
    littleEndian header.payloadSize

/-- The header that the bytes start with. -/
def decode : List UInt8 → Except ArchiveError Header
  | m₀ :: m₁ :: m₂ :: m₃ :: v₀ :: v₁ :: v₂ :: v₃ ::
      c₀ :: c₁ :: c₂ :: c₃ :: s₀ :: s₁ :: s₂ :: s₃ :: _ =>
      .ok
        { magic := #v[m₀, m₁, m₂, m₃]
          version := ofLittleEndian v₀ v₁ v₂ v₃
          checksum := ofLittleEndian c₀ c₁ c₂ c₃
          payloadSize := ofLittleEndian s₀ s₁ s₂ s₃ }
  | bytes => .error (.truncated byteSize bytes.length)

/-- Refuses a header that is not the one written for the payload. The mark is compared first, then
the version, the length and the check. -/
def validate (header : Header) (payload : List UInt8) : Except ArchiveError Unit :=
  if header.magic ≠ magicBytes then .error (.badMagic header.magic)
  else if header.version ≠ currentVersion then .error (.version currentVersion header.version)
  else if payload.length ≠ header.payloadSize.toNat then
    .error (.truncated header.payloadSize.toNat payload.length)
  else if Checksum.ofBytes payload ≠ header.checksum then
    .error (.checksum header.checksum (Checksum.ofBytes payload))
  else .ok ()

end Header

namespace Archive

/-- A list of items as a whole archive. -/
def encode (items : List Item) : List UInt8 :=
  let payload := Payload.encode items
  (Header.forPayload payload).encode ++ payload

/-- The items of a whole archive. -/
def decode (bytes : List UInt8) : Except ArchiveError (List Item) := do
  let header ← Header.decode bytes
  let payload := bytes.drop Header.byteSize
  header.validate payload
  (Payload.decode payload).mapError .decode

end Archive

end TypeGraph

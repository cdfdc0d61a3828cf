import Mathlib.Algebra.Group.Nat.Defs
import TypeGraph.Archive.Header
import TypeGraph.Proofs.Outcome

/-!
What an archive has to be like to be accepted. Main statement: the bytes that are accepted are the
header of a payload and then that payload (`Archive.decode_eq_ok`), so that nothing in a header may
differ from what is written for its payload.
-/

namespace TypeGraph

/-! ### Numbers of four bytes -/

/-- Bits that are put above the lowest ones of a number are added to it. -/
theorem or_mul_two_pow {low places : Nat} (high : Nat) (h : low < 2 ^ places) :
    low ||| high * 2 ^ places = low + high * 2 ^ places := by
  rw [← Nat.shiftLeft_eq, Nat.or_comm, ← Nat.shiftLeft_add_eq_or_of_lt h, Nat.add_comm]

theorem toNat_shiftLeft_byte (byte : UInt8) {places : UInt32} (h : places.toNat ≤ 24) :
    (byte.toUInt32 <<< places).toNat = byte.toNat * 2 ^ places.toNat := by
  have hlow : places.toNat % 32 = places.toNat := Nat.mod_eq_of_lt (by omega)
  have hsize : byte.toNat * 2 ^ places.toNat < 2 ^ 8 * 2 ^ 24 :=
    Nat.mul_lt_mul_of_lt_of_le byte.toNat_lt (Nat.pow_le_pow_right (by omega) h) (by omega)
  rw [UInt32.toNat_shiftLeft, UInt8.toNat_toUInt32, hlow, Nat.shiftLeft_eq]
  exact Nat.mod_eq_of_lt hsize

/-- The bytes of a number are its digits to the base 256. -/
theorem toNat_ofLittleEndian (b₀ b₁ b₂ b₃ : UInt8) :
    (ofLittleEndian b₀ b₁ b₂ b₃).toNat =
      b₀.toNat + b₁.toNat * 2 ^ 8 + b₂.toNat * 2 ^ 16 + b₃.toNat * 2 ^ 24 := by
  have h₀ := b₀.toNat_lt
  have h₁ := b₁.toNat_lt
  have h₂ := b₂.toNat_lt
  simp only [ofLittleEndian, UInt32.toNat_or, UInt8.toNat_toUInt32]
  rw [toNat_shiftLeft_byte b₁ (by decide), toNat_shiftLeft_byte b₂ (by decide),
    toNat_shiftLeft_byte b₃ (by decide)]
  simp only [UInt32.reduceToNat]
  rw [or_mul_two_pow _ h₀, or_mul_two_pow b₂.toNat (by omega), or_mul_two_pow _ (by omega)]

theorem ofLittleEndian_littleEndian (word : UInt32) :
    ofLittleEndian word.toUInt8 (word >>> 8).toUInt8 (word >>> 16).toUInt8 (word >>> 24).toUInt8 =
      word := by
  have h := word.toNat_lt
  apply UInt32.toNat_inj.mp
  rw [toNat_ofLittleEndian]
  simp [Nat.shiftRight_eq_div_pow]
  omega

theorem littleEndian_ofLittleEndian (b₀ b₁ b₂ b₃ : UInt8) :
    littleEndian (ofLittleEndian b₀ b₁ b₂ b₃) = [b₀, b₁, b₂, b₃] := by
  have h₀ := b₀.toNat_lt
  have h₁ := b₁.toNat_lt
  have h₂ := b₂.toNat_lt
  have h₃ := b₃.toNat_lt
  simp [littleEndian, ← UInt8.toNat_inj, toNat_ofLittleEndian, Nat.shiftRight_eq_div_pow]
  omega

/-! ### Headers -/

namespace Header

@[simp] theorem length_encode (header : Header) : header.encode.length = byteSize := by
  simp [encode, littleEndian, byteSize]

@[simp] theorem drop_encode_append (header : Header) (payload : List UInt8) :
    (header.encode ++ payload).drop byteSize = payload := by
  rw [← header.length_encode, List.drop_left]

/-- A header is read off the bytes that start with it, and off no others. -/
theorem decode_eq_ok {bytes : List UInt8} {header : Header} :
    decode bytes = .ok header ↔ ∃ payload, bytes = header.encode ++ payload := by
  constructor
  · intro h
    unfold decode at h
    split at h
    · next m₀ m₁ m₂ m₃ v₀ v₁ v₂ v₃ c₀ c₁ c₂ c₃ s₀ s₁ s₂ s₃ payload =>
        cases h
        refine ⟨payload, ?_⟩
        simp [encode, littleEndian_ofLittleEndian]
    · cases h
  · rintro ⟨payload, rfl⟩
    obtain ⟨⟨⟨letters⟩, hsize⟩, version, checksum, payloadSize⟩ := header
    obtain ⟨m₀, m₁, m₂, m₃, rfl⟩ := List.length_eq_four.mp hsize
    simp [encode, littleEndian, decode, ofLittleEndian_littleEndian]

theorem encode_inj {header header' : Header} :
    header.encode = header'.encode ↔ header = header' := by
  refine ⟨fun h => ?_, fun h => by rw [h]⟩
  have hread : decode header.encode = .ok header := decode_eq_ok.mpr ⟨[], by simp⟩
  have hread' : decode header'.encode = .ok header' := decode_eq_ok.mpr ⟨[], by simp⟩
  rw [h, hread'] at hread
  exact (Except.ok.inj hread).symm

/-- A header is accepted exactly if it is the one written for the payload and the payload is not
too long for one. -/
theorem validate_eq_ok {header : Header} {payload : List UInt8} :
    header.validate payload = .ok () ↔
      header = forPayload payload ∧ payload.length < UInt32.size := by
  unfold validate forPayload
  constructor
  · intro h
    split at h
    · cases h
    split at h
    · cases h
    split at h
    · cases h
    split at h
    · cases h
    next hmagic hversion hlength hchecksum =>
      simp only [not_not] at hmagic hversion hlength hchecksum
      refine ⟨?_, hlength ▸ header.payloadSize.toNat_lt⟩
      cases header
      simp_all
  · rintro ⟨rfl, h⟩
    have hlength : (UInt32.ofNat payload.length).toNat = payload.length := by
      simpa using Nat.mod_eq_of_lt h
    simp [hlength]

end Header

/-! ### Archives -/

namespace Archive

theorem decode_append (header : Header) (payload : List UInt8) :
    decode (header.encode ++ payload) =
      header.validate payload >>= fun _ => (Payload.decode payload).mapError .decode := by
  simp only [decode, Header.decode_eq_ok.mpr ⟨payload, rfl⟩, Header.drop_encode_append]
  rfl

/-- The bytes that are accepted are a header and the payload it was written for. -/
theorem decode_eq_ok {bytes : List UInt8} {items : List Item} :
    decode bytes = .ok items ↔ ∃ payload, payload.length < UInt32.size ∧
      bytes = (Header.forPayload payload).encode ++ payload ∧
      Payload.decode payload = .ok items := by
  constructor
  · intro h
    obtain ⟨header, hheader, _⟩ := bind_eq_ok.mp h
    obtain ⟨payload, rfl⟩ := Header.decode_eq_ok.mp hheader
    rw [decode_append] at h
    obtain ⟨_, hvalid, hitems⟩ := bind_eq_ok.mp h
    obtain ⟨rfl, hlength⟩ := Header.validate_eq_ok.mp hvalid
    refine ⟨payload, hlength, rfl, ?_⟩
    cases hp : Payload.decode payload with
    | ok found => simpa [hp, Except.mapError] using hitems
    | error error => simp [hp, Except.mapError] at hitems
  · rintro ⟨payload, hlength, rfl, h⟩
    rw [decode_append, Header.validate_eq_ok.mpr ⟨rfl, hlength⟩, h]
    rfl

/-- The bytes are a header and the payload it was written for, which need not be items. -/
def Framed (bytes : List UInt8) : Prop :=
  ∃ payload : List UInt8, payload.length < UInt32.size ∧
    bytes = (Header.forPayload payload).encode ++ payload

theorem framed_of_decode {bytes : List UInt8} {items : List Item} (h : decode bytes = .ok items) :
    Framed bytes := by
  obtain ⟨payload, hlength, hbytes, _⟩ := decode_eq_ok.mp h
  exact ⟨payload, hlength, hbytes⟩

theorem framed_encode {items : List Item} (h : (Payload.encode items).length < UInt32.size) :
    Framed (encode items) :=
  ⟨_, h, rfl⟩

variable {bytes bytes' : List UInt8}

/-- The length is in the header, so that none of these starts with another one. -/
theorem Framed.eq_of_begins (h : Framed bytes) (h' : Framed bytes') (hbegins : bytes <+: bytes') :
    bytes = bytes' := by
  obtain ⟨payload, hlength, rfl⟩ := h
  obtain ⟨payload', hlength', rfl⟩ := h'
  obtain ⟨extra, heq⟩ := hbegins
  rw [List.append_assoc] at heq
  obtain ⟨hheader, hpayload⟩ := List.append_inj heq (by simp)
  have hsame := Header.encode_inj.mp hheader
  have hsize : payload.length = payload'.length := by
    have hword := congrArg (fun header => header.payloadSize.toNat) hsame
    simp only [Header.forPayload, UInt32.toNat_ofNat'] at hword
    rwa [Nat.mod_eq_of_lt hlength, Nat.mod_eq_of_lt hlength'] at hword
  rw [← hpayload, List.length_append] at hsize
  obtain rfl := List.length_eq_zero_iff.mp (by omega : extra.length = 0)
  rw [← hpayload, List.append_nil]

/-- The header depends on the payload alone. -/
theorem Framed.eq_of_drop (h : Framed bytes) (h' : Framed bytes')
    (hpayload : bytes.drop Header.byteSize = bytes'.drop Header.byteSize) : bytes = bytes' := by
  obtain ⟨payload, _, rfl⟩ := h
  obtain ⟨payload', _, rfl⟩ := h'
  rw [Header.drop_encode_append, Header.drop_encode_append] at hpayload
  rw [hpayload]

end Archive

end TypeGraph

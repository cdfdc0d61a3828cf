import TypeGraph.Proofs.Framing

/-!
Archives that were damaged. Main statement: what is left of an archive that was cut off, made
longer, given another header, or changed within four bytes after it, is refused
(`Archive.decode_damaged`). The check finds the last of these because its steps are linear in
exclusive or and lose nothing: two runs that end alike and have read bytes that differ started from
remainders that differ (`Checksum.foldl_absorb_eq`).
-/

namespace TypeGraph

/-! ### The check -/

namespace Checksum

variable {r s : UInt32}

theorem and_one_eq_one : r &&& 1 = 1 ↔ r.toNat % 2 = 1 := by
  rw [← UInt32.toNat_inj, UInt32.toNat_and]
  simp

theorem shift_of_odd (h : r.toNat % 2 = 1) : shift r = (r >>> 1) ^^^ polynomial :=
  if_pos (and_one_eq_one.mpr h)

theorem shift_of_even (h : r.toNat % 2 = 0) : shift r = r >>> 1 := by
  apply if_neg
  rw [and_one_eq_one]
  omega

theorem toNat_shiftRight_one (r : UInt32) : (r >>> 1).toNat = r.toNat / 2 := by
  simp [Nat.shiftRight_eq_div_pow]

/-- The polynomial is added twice where both remainders are odd, and so not at all. -/
theorem shift_xor (r s : UInt32) : shift (r ^^^ s) = shift r ^^^ shift s := by
  have hparity : (r ^^^ s).toNat % 2 = 1 ↔ ¬(r.toNat % 2 = 1 ↔ s.toNat % 2 = 1) := by
    rw [UInt32.toNat_xor, Nat.xor_mod_two_eq_one]
  rcases Nat.mod_two_eq_zero_or_one r.toNat with hr | hr <;>
    rcases Nat.mod_two_eq_zero_or_one s.toNat with hs | hs
  · rw [shift_of_even (by omega), shift_of_even hr, shift_of_even hs, UInt32.shiftRight_xor]
  · rw [shift_of_odd (by omega), shift_of_even hr, shift_of_odd hs, UInt32.shiftRight_xor]
    ac_rfl
  · rw [shift_of_odd (by omega), shift_of_odd hr, shift_of_even hs, UInt32.shiftRight_xor]
    ac_rfl
  · have hcancel (x y p : UInt32) : (x ^^^ p) ^^^ (y ^^^ p) = x ^^^ y := by
      calc (x ^^^ p) ^^^ (y ^^^ p) = (x ^^^ y) ^^^ (p ^^^ p) := by ac_rfl
        _ = x ^^^ y := by rw [UInt32.xor_self, UInt32.xor_zero]
    rw [shift_of_even (by omega), shift_of_odd hr, shift_of_odd hs, UInt32.shiftRight_xor, hcancel]

/-- The polynomial has its highest bit set and what is moved down has not. -/
theorem eq_zero_of_shift (h : shift r = 0) : r = 0 := by
  have hlt := r.toNat_lt
  have hhalf := toNat_shiftRight_one r
  rcases Nat.mod_two_eq_zero_or_one r.toNat with hr | hr
  · rw [shift_of_even hr] at h
    rw [h] at hhalf
    apply UInt32.toNat_inj.mp
    simp only [UInt32.toNat_zero] at hhalf ⊢
    omega
  · rw [shift_of_odd hr, UInt32.xor_eq_zero_iff] at h
    have hpolynomial : polynomial.toNat = 0xEDB88320 := rfl
    rw [h, hpolynomial] at hhalf
    omega

theorem toNat_shift {n : Nat} (h : r.toNat = 2 * n) : (shift r).toNat = n := by
  rw [shift_of_even (by omega), toNat_shiftRight_one]
  omega

theorem shiftByte_xor (r s : UInt32) : shiftByte (r ^^^ s) = shiftByte r ^^^ shiftByte s := by
  simp only [shiftByte, shift_xor]

theorem eq_zero_of_shiftByte (h : shiftByte r = 0) : r = 0 := by
  iterate 8 replace h := eq_zero_of_shift h
  exact h

theorem shiftByte_inj : shiftByte r = shiftByte s ↔ r = s := by
  refine ⟨fun h => ?_, fun h => by rw [h]⟩
  rw [← UInt32.xor_eq_zero_iff, ← shiftByte_xor] at h
  exact UInt32.xor_eq_zero_iff.mp (eq_zero_of_shiftByte h)

theorem toNat_shiftByte {n : Nat} (h : r.toNat = 2 ^ 8 * n) : (shiftByte r).toNat = n := by
  iterate 8 apply toNat_shift
  omega

/-- A remainder with nothing in its highest byte was only moved down. -/
theorem toNat_of_shiftByte (h : (shiftByte r).toNat < 2 ^ 24) :
    r.toNat = 2 ^ 8 * (shiftByte r).toNat := by
  have hup : (shiftByte r <<< 8).toNat = 2 ^ 8 * (shiftByte r).toNat := by
    rw [UInt32.toNat_shiftLeft, Nat.shiftLeft_eq]
    simp only [UInt32.reduceToNat, Nat.reduceMod]
    omega
  have hr : r = shiftByte r <<< 8 := by
    rw [← shiftByte_inj, ← UInt32.toNat_inj, toNat_shiftByte hup]
  exact (congrArg UInt32.toNat hr).trans hup

theorem absorb_xor (r s : UInt32) (b c : UInt8) :
    absorb r b ^^^ absorb s c = shiftByte ((r ^^^ s) ^^^ (b ^^^ c).toUInt32) := by
  rw [absorb, absorb, ← shiftByte_xor, UInt8.toUInt32_xor]
  congr 1
  ac_rfl

theorem absorb_inj {byte : UInt8} : absorb r byte = absorb s byte ↔ r = s := by
  rw [absorb, absorb, shiftByte_inj, UInt32.xor_left_inj]

/-- Nothing that was read gets lost by reading on. -/
theorem foldl_absorb_inj {bytes : List UInt8} :
    bytes.foldl absorb r = bytes.foldl absorb s ↔ r = s := by
  induction bytes generalizing r s with
  | nil => rfl
  | cons byte bytes ih => rw [List.foldl_cons, List.foldl_cons, ih, absorb_inj]

/-- Remainders that differ in their lowest `n` bytes after a byte was read differed in their lowest
`n + 1` bytes before. If they did not differ at all, they read the same. -/
theorem xor_lt_of_absorb {n : Nat} {b c : UInt8} (hn : n ≤ 3)
    (h : (absorb r b ^^^ absorb s c).toNat < 2 ^ (8 * n)) :
    (r ^^^ s).toNat < 2 ^ (8 * (n + 1)) ∧ (r = s → b = c) := by
  have hbyte : (b ^^^ c).toUInt32.toNat < 2 ^ 8 := (b ^^^ c).toNat_lt
  have hsize : 2 ^ (8 * n) ≤ 2 ^ 24 := Nat.pow_le_pow_right (by decide) (by omega)
  rw [absorb_xor] at h
  have hmoved := toNat_of_shiftByte (Nat.lt_of_lt_of_le h hsize)
  generalize shiftByte (r ^^^ s ^^^ (b ^^^ c).toUInt32) = moved at h hmoved
  constructor
  · have hfront : (r ^^^ s ^^^ (b ^^^ c).toUInt32).toNat < 2 ^ (8 * (n + 1)) := by
      rw [hmoved, Nat.mul_succ, Nat.pow_add, Nat.mul_comm]
      exact Nat.mul_lt_mul_of_pos_right h (by decide)
    have hback : (b ^^^ c).toUInt32.toNat < 2 ^ (8 * (n + 1)) :=
      Nat.lt_of_lt_of_le hbyte (Nat.pow_le_pow_right (by decide) (by omega))
    have hxor := Nat.xor_lt_two_pow hfront hback
    rwa [← UInt32.toNat_xor, UInt32.xor_assoc, UInt32.xor_self, UInt32.xor_zero] at hxor
  · rintro rfl
    rw [UInt32.xor_self, UInt32.zero_xor] at hmoved
    rw [← UInt8.xor_eq_zero_iff, ← UInt8.toNat_inj]
    rw [UInt8.toNat_toUInt32] at hbyte hmoved
    simp only [UInt8.toNat_zero]
    omega

/-- Two runs over at most four bytes that end alike. -/
theorem foldl_absorb_eq {old new : List UInt8} (hlength : new.length = old.length)
    (hshort : old.length ≤ 4) (h : old.foldl absorb r = new.foldl absorb s) :
    (r ^^^ s).toNat < 2 ^ (8 * old.length) ∧ (r = s → old = new) := by
  induction old generalizing new r s with
  | nil =>
      obtain rfl := List.length_eq_zero_iff.mp hlength
      obtain rfl : r = s := h
      simp
  | cons b old ih =>
      obtain ⟨c, new, rfl⟩ := List.exists_cons_of_length_eq_add_one hlength
      simp only [List.length_cons, Nat.add_right_cancel_iff] at hlength hshort
      obtain ⟨hafter, hsame⟩ := ih hlength (by omega) h
      obtain ⟨hbefore, hbyte⟩ := xor_lt_of_absorb (by omega) hafter
      refine ⟨hbefore, ?_⟩
      rintro rfl
      obtain rfl := hbyte rfl
      rw [hsame rfl]

/-- The check tells apart any two lists of bytes that differ within four bytes. -/
theorem ofBytes_ne {front old new back : List UInt8} (hlength : new.length = old.length)
    (hshort : old.length ≤ 4) (h : new ≠ old) :
    ofBytes (front ++ new ++ back) ≠ ofBytes (front ++ old ++ back) := by
  intro hcheck
  simp only [ofBytes, UInt32.xor_left_inj, List.foldl_append, foldl_absorb_inj] at hcheck
  exact h ((foldl_absorb_eq hlength hshort hcheck.symm).2 rfl).symm

end Checksum

/-! ### Damaged archives -/

/-- A payload of the right length with another check. -/
theorem Header.validate_of_checksum {payload damaged : List UInt8}
    (hshort : payload.length < UInt32.size) (hlength : damaged.length = payload.length)
    (h : Checksum.ofBytes damaged ≠ Checksum.ofBytes payload) :
    (forPayload payload).validate damaged =
      .error (.checksum (Checksum.ofBytes payload) (Checksum.ofBytes damaged)) := by
  have hsize : (UInt32.ofNat payload.length).toNat = payload.length := by
    simpa using Nat.mod_eq_of_lt hshort
  simp [validate, forPayload, hsize, hlength, h]

namespace Archive

theorem decode_error_of_not_framed {bytes : List UInt8} (h : ¬Framed bytes) :
    ∃ error, decode bytes = .error error := by
  cases hd : decode bytes with
  | ok items => exact absurd (framed_of_decode hd) h
  | error error => exact ⟨error, rfl⟩

/-- A few bytes behind the header were changed. -/
theorem decode_burst {payload front old new back : List UInt8}
    (hshort : payload.length < UInt32.size) (hpayload : payload = front ++ old ++ back)
    (hlength : new.length = old.length) (hfew : old.length ≤ 4) (hne : new ≠ old) :
    decode ((Header.forPayload payload).encode ++ (front ++ new ++ back)) =
      .error (.checksum (Checksum.ofBytes payload) (Checksum.ofBytes (front ++ new ++ back))) := by
  have hsame : (front ++ new ++ back).length = payload.length := by simp [hpayload, hlength]
  have hcheck : Checksum.ofBytes (front ++ new ++ back) ≠ Checksum.ofBytes payload :=
    hpayload ▸ Checksum.ofBytes_ne hlength hfew hne
  rw [decode_append, Header.validate_of_checksum hshort hsame hcheck]
  rfl

/-- An archive that was cut off, that something was added to, that was given another header, or in
which at most four bytes in a row behind the header were changed, is refused; the last because of
its check. -/
theorem decode_damaged (items : List Item) (h : (Payload.encode items).length < UInt32.size) :
    (∀ cut, cut <+: encode items → cut ≠ encode items → ∃ error, decode cut = .error error) ∧
    (∀ extra, extra ≠ [] → ∃ error, decode (encode items ++ extra) = .error error) ∧
    (∀ bytes, bytes.drop Header.byteSize = (encode items).drop Header.byteSize →
      bytes ≠ encode items → ∃ error, decode bytes = .error error) ∧
    (∀ front old new back, encode items = front ++ old ++ back → Header.byteSize ≤ front.length →
      new.length = old.length → old.length ≤ 4 → new ≠ old →
      decode (front ++ new ++ back) = .error (.checksum (Checksum.ofBytes (Payload.encode items))
        (Checksum.ofBytes ((front ++ new ++ back).drop Header.byteSize)))) := by
  have hframed := framed_encode h
  refine ⟨fun cut hbegins hne => ?_, fun extra hne => ?_, fun bytes hpayload hne => ?_, ?_⟩
  · exact decode_error_of_not_framed fun hcut => hne (hcut.eq_of_begins hframed hbegins)
  · apply decode_error_of_not_framed
    intro hmore
    have heq := hframed.eq_of_begins hmore (List.prefix_append _ _)
    exact hne (List.append_right_eq_self.mp heq.symm)
  · exact decode_error_of_not_framed fun hother => hne (hother.eq_of_drop hframed hpayload)
  · intro front old new back hwhole hfront hlength hfew hne
    have hheader : (Header.forPayload (Payload.encode items)).encode <+: front := by
      apply List.prefix_of_prefix_length_le (List.prefix_append _ _)
      · exact ⟨old ++ back, by rw [← List.append_assoc, ← hwhole, encode]⟩
      · simpa using hfront
    obtain ⟨front, rfl⟩ := hheader
    simp only [encode, List.append_assoc, List.append_cancel_left_eq] at hwhole
    rw [← List.append_assoc] at hwhole
    rw [List.append_assoc, List.append_assoc, ← List.append_assoc front, Header.drop_encode_append]
    exact decode_burst h hwhole hlength hfew hne

theorem decode_damaged_bool :
    (Payload.encode [.bool true]).length < UInt32.size ∧
    (∃ error, decode ((encode [.bool true]).take 18) = .error error) ∧
    (∃ error, decode (encode [.bool true] ++ [0]) = .error error) ∧
    (∃ error, decode (List.replicate 16 0 ++ [1, 1, 1]) = .error error) ∧
    decode ((encode [.bool true]).take 18 ++ [0] ++ []) =
      .error (.checksum (Checksum.ofBytes [1, 1, 1]) (Checksum.ofBytes [1, 1, 0])) := by
  have hpayload : Payload.encode [.bool true] = [1, 1, 1] := by decide +kernel
  have hwhole : encode [.bool true] =
      [86, 77, 67, 84, 2, 0, 0, 0, 242, 178, 159, 144, 3, 0, 0, 0, 1, 1, 1] := by
    rw [encode, hpayload]
    decide +kernel
  have hshort : (Payload.encode [.bool true]).length < UInt32.size := by
    rw [hpayload]
    decide
  obtain ⟨hcut, hmore, hheader, hburst⟩ := decode_damaged [.bool true] hshort
  rw [hpayload] at hburst
  rw [hwhole] at hcut hmore hheader hburst ⊢
  refine ⟨hshort, ?_, hmore [0] (by decide), ?_, ?_⟩
  · exact hcut _ (List.take_prefix _ _) (by decide)
  · exact hheader _ (by decide) (by decide)
  · exact hburst _ [1] [0] [] (by decide) (by decide) (by decide) (by decide) (by decide)

end Archive

end TypeGraph

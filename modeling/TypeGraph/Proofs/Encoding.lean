import TypeGraph.Proofs.Framing

/-!
Items read back from their bytes. Main statement: an archive that is not too long for its header
gives back the items it was written for (`Archive.decode_encode`). A text or a list can be read back
only if its length fits in a number of 64 bits; nothing that short an archive holds is longer.
-/

namespace TypeGraph

variable {α β : Type}

/-! ### Readers of bytes -/

/-- A reader takes these bytes, gives `a` and leaves whatever comes after. -/
def ByteReader.Takes (m : ByteReader α) (bytes : List UInt8) (a : α) : Prop :=
  ∀ rest, m (bytes ++ rest) = .ok a rest

namespace ByteReader

variable {m : ByteReader α} {f : α → ByteReader β} {front back : List UInt8} {a : α} {b : β}

theorem takes_pure (a : α) : Takes (pure a) [] a := fun _ => rfl

theorem Takes.bind (hm : m.Takes front a) (hf : (f a).Takes back b) :
    Takes (m >>= f) (front ++ back) b := by
  intro rest
  rw [List.append_assoc, run_bind_of_ok (hm (back ++ rest))]
  exact hf rest

/-- The last step may take nothing. -/
theorem Takes.last (hm : m.Takes front a) (hf : (f a).Takes [] b) : Takes (m >>= f) front b := by
  have h := hm.bind hf
  rwa [List.append_nil] at h

theorem takes_byte (byte : UInt8) : ByteReader.byte.Takes [byte] byte := fun _ => rfl

end ByteReader

open ByteReader

/-! ### Numbers -/

namespace Varint

variable {last allowed n : Nat}

theorem takes_oneByte (h : n < 128) (hlast : allowed = 0 → n ≤ last) :
    (readUpTo last (allowed + 1)).Takes (write n) n := by
  have hbyte : (UInt8.ofNat n).toNat = n := by
    rw [UInt8.toNat_ofNat']
    omega
  have hfits : ¬(allowed = 0 ∧ last < n) := by omega
  rw [write, if_pos h]
  refine (takes_byte _).last ?_
  simp only [hbyte, if_pos h, if_neg hfits]
  exact takes_pure n

theorem takes_moreBytes (h : ¬n < 128)
    (hrest : (readUpTo last allowed).Takes (write (n / 128)) (n / 128)) :
    (readUpTo last (allowed + 1)).Takes (write n) n := by
  have hbyte : (UInt8.ofNat (n % 128 + 128)).toNat = n % 128 + 128 := by
    rw [UInt8.toNat_ofNat']
    omega
  have hhigh : ¬n % 128 + 128 < 128 := by omega
  have hvalue : n % 128 + 128 - 128 + 128 * (n / 128) = n := by omega
  rw [write, if_neg h]
  refine (takes_byte _).bind ?_
  simp only [hbyte, if_neg hhigh]
  refine hrest.last ?_
  rw [hvalue]
  exact takes_pure n

/-- The bound on the last byte counts only where every byte before it is taken. -/
theorem takes_readUpTo (hlast : last < 128) (h : n < 128 ^ allowed * (last + 1)) :
    (readUpTo last (allowed + 1)).Takes (write n) n := by
  induction allowed generalizing n with
  | zero => exact takes_oneByte (by omega) (by omega)
  | succ allowed ih =>
      by_cases hn : n < 128
      · exact takes_oneByte hn (by omega)
      · apply takes_moreBytes hn
        apply ih
        rw [Nat.pow_succ, Nat.mul_right_comm] at h
        exact (Nat.div_lt_iff_lt_mul (by decide)).mpr h

theorem takes_word32 {n : Nat} (h : n < 2 ^ 32) : (read word32).Takes (write n) n :=
  takes_readUpTo (by decide) h

theorem takes_word64 {n : Nat} (h : n < 2 ^ 64) : (read word64).Takes (write n) n :=
  takes_readUpTo (by decide) h

theorem takes_word128 {n : Nat} (h : n < 2 ^ 128) : (read word128).Takes (write n) n :=
  takes_readUpTo (by decide) h

theorem write_ne_nil (n : Nat) : write n ≠ [] := by
  rw [write]
  split <;> simp

end Varint

theorem Zigzag.fold_lt (n : Int128) : fold n.val < 2 ^ 128 := by
  have h := n.le_val
  have h' := n.val_lt
  unfold Int128.bound at h h'
  unfold fold
  split <;> omega

/-! ### Items -/

namespace Payload

/-- What is written in this form can be read back, if its length fits in a number of 64 bits. -/
structure Restores (write : α → List UInt8) (read : ByteReader α) : Prop where
  /-- Lists are not longer than their bytes. -/
  write_ne_nil : ∀ a, write a ≠ []
  takes : ∀ a, (write a).length < 2 ^ 64 → read.Takes (write a) a

theorem takes_readBytes (bytes : List UInt8) : (readBytes bytes.length).Takes bytes bytes := by
  intro rest
  have hlong : ¬(bytes ++ rest).length < bytes.length := by simp
  unfold readBytes
  rw [run_bind_of_ok (run_get _)]
  simp only [if_neg hlong]
  simp
  rfl

theorem fromUTF8?_utf8 (text : String) : String.fromUTF8? ⟨(utf8 text).toArray⟩ = some text := by
  have h : (⟨(utf8 text).toArray⟩ : ByteArray) = text.toUTF8 := by simp [utf8]
  rw [h]
  exact dif_pos text.isValidUTF8

theorem restores_text : Restores text readText where
  write_ne_nil s := by simp [text, Varint.write_ne_nil]
  takes s h := by
    have hlength : (utf8 s).length < 2 ^ 64 := by
      simp only [text, List.length_append] at h
      omega
    refine (Varint.takes_word64 hlength).bind ((takes_readBytes _).last ?_)
    rw [fromUTF8?_utf8]
    exact takes_pure s

theorem length_le_length_flatMap {write : α → List UInt8} (h : ∀ a, write a ≠ []) (as : List α) :
    as.length ≤ (as.flatMap write).length := by
  induction as with
  | nil => simp
  | cons a as ih =>
      have := List.length_pos_of_ne_nil (h a)
      simp only [List.length_cons, List.flatMap_cons, List.length_append]
      omega

section List

variable {write : α → List UInt8} {read : ByteReader α}

theorem takes_times (hr : Restores write read) (as : List α)
    (h : (as.flatMap write).length < 2 ^ 64) :
    ByteReader.Takes (times read as.length) (as.flatMap write) as := by
  induction as with
  | nil => exact takes_pure []
  | cons a as ih =>
      simp only [List.flatMap_cons, List.length_append] at h
      have ha := hr.takes a (by omega)
      have has := ih (by omega)
      exact ha.bind (has.last (takes_pure _))

theorem restores_list (hr : Restores write read) : Restores (list write) (readList read) where
  write_ne_nil as := by simp [list, Varint.write_ne_nil]
  takes as h := by
    have hcount := length_le_length_flatMap hr.write_ne_nil as
    simp only [list, List.length_append] at h
    exact (Varint.takes_word64 (by omega)).bind (takes_times hr as (by omega))

end List

theorem takes_readBool (value : Bool) : readBool.Takes [if value then 1 else 0] value := by
  cases value <;> exact fun _ => rfl

theorem takes_readCount (value : Count) :
    readCount.Takes (Varint.write value.toNat) value := by
  refine (Varint.takes_word64 value.toNat_lt).last ?_
  rw [Count.ofNat?_eq_some_iff.mpr rfl]
  exact takes_pure value

theorem takes_readSigned (value : Int128) :
    readSigned.Takes (Varint.write (Zigzag.fold value.val)) value := by
  refine (Varint.takes_word128 (Zigzag.fold_lt value)).last ?_
  rw [Zigzag.unfold_fold, Int128.ofInt?_val]
  exact takes_pure value

theorem restores_item : Restores item readItem where
  write_ne_nil i := by cases i <;> simp [item, Varint.write_ne_nil]
  takes i h := by
    cases i with
    | tag s =>
        simp only [item, List.length_append] at h
        exact (Varint.takes_word32 (by decide)).bind
          ((restores_text.takes s (by omega)).last (takes_pure _))
    | bool value =>
        exact (Varint.takes_word32 (by decide)).bind ((takes_readBool value).last (takes_pure _))
    | unsigned value =>
        exact (Varint.takes_word32 (by decide)).bind ((takes_readCount value).last (takes_pure _))
    | signed value =>
        exact (Varint.takes_word32 (by decide)).bind ((takes_readSigned value).last (takes_pure _))
    | str s =>
        simp only [item, List.length_append] at h
        exact (Varint.takes_word32 (by decide)).bind
          ((restores_text.takes s (by omega)).last (takes_pure _))
    | key segments =>
        simp only [item, List.length_append] at h
        exact (Varint.takes_word32 (by decide)).bind
          (((restores_list restores_text).takes segments (by omega)).last (takes_pure _))

theorem decode_written {items : List Item} (h : (encode items).length < 2 ^ 64) :
    decode (encode items) = .ok items := by
  have hrun := (restores_list restores_item).takes items h []
  rw [List.append_nil] at hrun
  simp only [decode, encode, EStateM.run, hrun]

end Payload

/-! ### Archives -/

namespace Archive

/-- An archive whose payload is not too long gives back the items it was written for. -/
theorem decode_encode (items : List Item) (h : (Payload.encode items).length < UInt32.size) :
    decode (encode items) = .ok items := by
  have hpayload := Payload.decode_written (Nat.lt_trans h (by decide))
  exact decode_eq_ok.mpr ⟨_, h, rfl, hpayload⟩

/-- Among them the numbers that take the most bytes and texts in which letters take several. -/
theorem decode_encode_extremes :
    (Payload.encode
      [.unsigned 0xFFFFFFFFFFFFFFFF, .signed ⟨-Int128.bound, by decide, by decide⟩,
        .str "Größe", .key ["日本", ""]]).length < UInt32.size ∧
    decode (encode
      [.unsigned 0xFFFFFFFFFFFFFFFF, .signed ⟨-Int128.bound, by decide, by decide⟩,
        .str "Größe", .key ["日本", ""]]) =
      .ok
        [.unsigned 0xFFFFFFFFFFFFFFFF, .signed ⟨-Int128.bound, by decide, by decide⟩,
          .str "Größe", .key ["日本", ""]] := by
  have hshort : (Payload.encode
      [.unsigned 0xFFFFFFFFFFFFFFFF, .signed ⟨-Int128.bound, by decide, by decide⟩,
        .str "Größe", .key ["日本", ""]]).length < UInt32.size := by decide +kernel
  exact ⟨hshort, decode_encode _ hshort⟩

end Archive

end TypeGraph

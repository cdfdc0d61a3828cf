/-!
Numbers of fixed width: counts of 64 bits, whose arithmetic is checked and never wraps, and signed
integers of 128 bits. Main statement: a checked operation gives the exact number or nothing
(`Count.ofNat?_eq_some_iff`).
-/

namespace TypeGraph

/-- A number of bytes, words, elements or slots: 64 bits, without a sign. -/
abbrev Count := UInt64

namespace Count

/-- The count `n`, or nothing if it needs more than 64 bits. -/
def ofNat? (n : Nat) : Option Count :=
  if n < UInt64.size then some (UInt64.ofNat n) else none

/-- The exact sum of two counts. -/
def add? (a b : Count) : Option Count :=
  ofNat? (a.toNat + b.toNat)

/-- The exact product of two counts. -/
def mul? (a b : Count) : Option Count :=
  ofNat? (a.toNat * b.toNat)

/-- The least multiple of a positive `unit` that is at least `a`. -/
def roundUp? (a unit : Count) : Option Count :=
  ofNat? ((a.toNat + unit.toNat - 1) / unit.toNat * unit.toNat)

/-- The quotient of `a` by a positive divisor, rounded up. It never exceeds `a`. -/
def ceilDiv (a divisor : Count) : Count :=
  UInt64.ofNat ((a.toNat + divisor.toNat - 1) / divisor.toNat)

theorem ofNat?_eq_some_iff {n : Nat} {c : Count} : ofNat? n = some c ↔ c.toNat = n := by
  unfold ofNat?
  split
  · next h =>
      rw [Option.some.injEq]
      constructor
      · rintro rfl
        simpa using Nat.mod_eq_of_lt h
      · rintro rfl
        simp
  · next h =>
      constructor
      · rintro ⟨⟩
      · rintro rfl
        exact absurd c.toNat_lt h

theorem ofNat?_eq_none_iff {n : Nat} : ofNat? n = none ↔ UInt64.size ≤ n := by
  unfold ofNat?
  split <;> simp <;> omega

theorem toNat_ceilDiv {a divisor : Count} (h : 0 < divisor.toNat) :
    (ceilDiv a divisor).toNat = (a.toNat + divisor.toNat - 1) / divisor.toNat := by
  have ha := a.toNat_lt
  have hle : (a.toNat + divisor.toNat - 1) / divisor.toNat ≤ a.toNat := by
    rw [Nat.div_le_iff_le_mul_add_pred h]
    have := Nat.le_mul_of_pos_left a.toNat h
    omega
  simp only [ceilDiv, UInt64.toNat_ofNat']
  exact Nat.mod_eq_of_lt (by omega)

end Count

/-- The least integer too large for 128 bits with a sign, 2¹²⁷. -/
def Int128.bound : Int := 0x80000000000000000000000000000000

/-- A signed integer of 128 bits. -/
structure Int128 where
  val : Int
  le_val : -Int128.bound ≤ val
  val_lt : val < Int128.bound
deriving DecidableEq, Repr

namespace Int128

/-- The integer `n`, if 128 bits hold it. -/
def ofInt? (n : Int) : Option Int128 :=
  if h : -bound ≤ n ∧ n < bound then some ⟨n, h.1, h.2⟩ else none

/-- Zero. -/
def zero : Int128 := ⟨0, by decide, by decide⟩

@[ext] theorem ext {a b : Int128} (h : a.val = b.val) : a = b := by
  cases a
  cases b
  simpa using h

@[simp] theorem ofInt?_val (a : Int128) : ofInt? a.val = some a := by
  exact dif_pos ⟨a.le_val, a.val_lt⟩

/-- The smaller of two integers. -/
def min (a b : Int128) : Int128 := if a.val ≤ b.val then a else b

/-- The larger of two integers. -/
def max (a b : Int128) : Int128 := if a.val ≤ b.val then b else a

end Int128

end TypeGraph

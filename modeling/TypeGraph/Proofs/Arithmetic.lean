import TypeGraph.Proofs.Wrapping

/-!
The arithmetic questions about a type. Its kind, its completeness and the builtin type behind it are
found each in its own way, and an open enum has the first without the others. Main statement: a type
is signed or unsigned, but not both, if it is arithmetic and complete, it ranks if it is an integer
and complete, and if it is a fixed-point type its bits add up
(`Store.Reachable.arithmetic_coherent`).
-/

namespace TypeGraph

/-! ### Builtin types -/

namespace Builtin

variable {builtin : Builtin}

theorem not_signed_and_unsigned : ¬(builtin.isSigned = true ∧ builtin.isUnsigned = true) := by
  cases builtin <;> simp [isSigned, isUnsigned]

theorem isSigned_or_isUnsigned :
    (builtin.isSigned || builtin.isUnsigned) = builtin.kind.isArithmetic := by
  cases builtin <;> simp [isSigned, isUnsigned, kind, Kind.isArithmetic, Kind.isInteger]

theorem isSome_rank? : builtin.rank?.isSome = builtin.kind.isInteger := by
  cases builtin <;> rfl

theorem isComplete_of_isArithmetic (h : builtin.kind.isArithmetic = true) :
    builtin.isComplete = true := by
  cases builtin <;> first | rfl | cases h

end Builtin

theorem Kind.isArithmetic_of_isInteger {kind : Kind} (h : kind.isInteger = true) :
    kind.isArithmetic = true := by
  simp [isArithmetic, h]

theorem FixedType.mem_all (type : FixedType) : type ∈ FixedType.all := by
  rcases type with ⟨_ | _, _ | _ | _, _ | _, _ | _⟩ <;> decide

theorem FixedType.bits_fill (target : Target) (type : FixedType) :
    ∃ size, Count.mul? (type.bytes target) target.byteBits = some size ∧
      (type.bits target).sign.toNat + (type.bits target).integral.toNat +
        (type.bits target).fraction.toNat = size.toNat := by
  have hall : ∀ target ∈ [Target.narrow, .wide], ∀ type ∈ FixedType.all,
      (Count.mul? (type.bytes target) target.byteBits).any (fun size =>
        (type.bits target).sign.toNat + (type.bits target).integral.toNat +
          (type.bits target).fraction.toNat = size.toNat) = true := by decide +kernel
  have := hall target (by cases target <;> decide) type type.mem_all
  simpa [Option.any_eq_true] using this

/-! ### What decides the arithmetic questions -/

/-- What the arithmetic questions are decided by: the kind that a type is classified by, the builtin
type behind it, and whether it is complete. An open enum has an arithmetic kind and nothing behind
it. -/
inductive Classed : Kind → Option Builtin → Bool → Prop where
  | builtin (builtin : Builtin) : Classed builtin.kind (some builtin) builtin.isComplete
  | finished {builtin : Builtin} (integer : builtin.kind.isInteger = true) :
      Classed .enum (some builtin) true
  | opened : Classed .enum none false
  | other {kind : Kind} {complete : Bool} (h : kind.isArithmetic = false) :
      Classed kind none complete

namespace Classed

variable {kind : Kind} {behind : Option Builtin} {complete : Bool}

theorem not_signed_and_unsigned (_ : Classed kind behind complete) :
    ¬(behind.any Builtin.isSigned = true ∧ behind.any Builtin.isUnsigned = true) := by
  cases behind with
  | none => simp
  | some builtin => exact builtin.not_signed_and_unsigned

theorem signed_or_unsigned (h : Classed kind behind complete) :
    (behind.any Builtin.isSigned || behind.any Builtin.isUnsigned) =
      (kind.isArithmetic && complete) := by
  cases h with
  | builtin builtin =>
      rw [Option.any_some, Option.any_some, Builtin.isSigned_or_isUnsigned]
      cases harith : builtin.kind.isArithmetic with
      | false => rfl
      | true => rw [Builtin.isComplete_of_isArithmetic harith]; rfl
  | @finished builtin integer =>
      rw [Option.any_some, Option.any_some, Builtin.isSigned_or_isUnsigned,
        Kind.isArithmetic_of_isInteger integer]
      rfl
  | opened => rfl
  | other harith => rw [harith]; rfl

theorem isSome_rank? (h : Classed kind behind complete) :
    (behind.bind Builtin.rank?).isSome = (kind.isInteger && complete) := by
  cases h with
  | builtin builtin =>
      rw [Option.bind_some, Builtin.isSome_rank?]
      cases hinteger : builtin.kind.isInteger with
      | false => rfl
      | true =>
          rw [Builtin.isComplete_of_isArithmetic (Kind.isArithmetic_of_isInteger hinteger)]
          rfl
  | finished integer => rw [Option.bind_some, Builtin.isSome_rank?, integer]; rfl
  | opened => rfl
  | @other kind _ harith =>
      cases hinteger : kind.isInteger with
      | false => rfl
      | true => rw [Kind.isArithmetic_of_isInteger hinteger] at harith; cases harith

theorem fixed_iff (h : Classed kind behind complete) :
    kind = .fixed ↔ ∃ fixed, behind = some (.fixed fixed) := by
  cases h with
  | builtin builtin => cases builtin <;> simp [Builtin.kind]
  | @finished builtin integer =>
      cases builtin <;> simp_all [Builtin.kind, Kind.isInteger]
  | opened => simp
  | @other kind _ harith => cases kind <;> simp_all [Kind.isArithmetic, Kind.isInteger]

end Classed

namespace Store

variable {store : Store} {type unit : TypeId}

/-! ### Finding it in a store -/

theorem WellFormed.isComplete_unit (hw : store.WellFormed) (hh : store.Holds type)
    (hunit : store.withoutBitfield type = .ok unit) :
    store.isComplete type = store.isComplete unit := by
  refine hw.induct (P := fun type => store.withoutBitfield type = .ok unit →
    store.isComplete type = store.isComplete unit) (fun type seen hv ih hunit => ?_) hh hunit
  rw [Store.withoutBitfield, hv, ok_bind] at hunit
  cases seen with
  | bitfield base bits offset =>
      rw [Store.isComplete, hv, ok_bind]
      exact ih base hunit
  | _ =>
      cases hunit
      rfl

theorem WellFormed.withoutBitfield_self (hw : store.WellFormed) {node : Node}
    (hn : store.node? unit = some node) (hbits : node.shape.bits? = none) :
    store.withoutBitfield unit = .ok unit := by
  obtain ⟨seen, hv⟩ := hw.view hn
  rw [Store.withoutBitfield, hv, ok_bind]
  have hseen := (rel_of_view hn hv).bits?_eq
  rw [hbits] at hseen
  cases seen with
  | bitfield base bits offset => cases hseen
  | _ => rfl

theorem WellFormed.builtinBehind?_builtin (hw : store.WellFormed) {builtin : Builtin}
    {own : Qual PathId} (hn : store.node? unit = some ⟨.builtin builtin, own⟩) :
    store.builtinBehind? unit = .ok (some builtin) := by
  rw [Store.builtinBehind?, hw.withoutBitfield_self hn rfl, ok_bind,
    shape_eq_ok.mpr ⟨_, hn, rfl⟩]
  rfl

theorem WellFormed.opened (hw : store.WellFormed) {name : PathId} {own : Qual PathId}
    (hn : store.node? unit = some ⟨.enumType name, own⟩) {failure : Failure}
    (he : store.enumBody unit = .error failure) :
    store.builtinBehind? unit = .ok none ∧ store.isComplete unit = .ok false := by
  obtain ⟨plain, hp⟩ := Holds.exists_unqualified ⟨_, hn⟩
  have howner : store.enumOwner unit = .ok plain := by
    rw [Store.enumOwner, kind_eq_ok.mpr ⟨_, hn, rfl⟩]
    exact hp
  have hnone : store.enumBody? plain = none := by
    rw [Store.enumBody, howner, ok_bind] at he
    cases hbody : store.enumBody? plain with
    | none => rfl
    | some body => rw [hbody] at he; cases he
  constructor
  · rw [Store.builtinBehind?, hw.withoutBitfield_self hn rfl, ok_bind,
      shape_eq_ok.mpr ⟨_, hn, rfl⟩, ok_bind]
    dsimp only
    rw [hp, ok_bind, hnone]
    rfl
  · rw [Store.isComplete, view_enum hw hn, ok_bind]
    dsimp only
    rw [hp, ok_bind, hnone]
    rfl

/-- Every type has a unit, and that decides the arithmetic questions. -/
theorem Reachable.exists_classed (h : store.Reachable) (hh : store.Holds type) :
    ∃ unit node behind complete, store.withoutBitfield type = .ok unit ∧
      store.node? unit = some node ∧ store.builtinBehind? type = .ok behind ∧
      store.isComplete type = .ok complete ∧ Classed node.shape.kind behind complete := by
  have hw := h.wellFormed
  obtain ⟨unit, node, hunit, hn, hbits⟩ := hw.exists_withoutBitfield hh
  have hself := hw.withoutBitfield_self hn hbits
  obtain ⟨complete, hc⟩ := hw.exists_isComplete ⟨node, hn⟩
  obtain ⟨behind, hb⟩ := hw.exists_builtinBehind? h.integralEnums ⟨node, hn⟩
  refine ⟨unit, node, behind, complete, hunit, hn,
    (builtinBehind?_eq_of_unit_eq (hunit.trans hself.symm)).trans hb,
    (hw.isComplete_unit hh hunit).trans hc, ?_⟩
  obtain ⟨shape, own⟩ := node
  cases shape with
  | builtin builtin =>
      rw [hw.builtinBehind?_builtin hn] at hb
      rw [Store.isComplete, view_builtin hw hn] at hc
      cases hb
      cases hc
      exact .builtin builtin
  | enumType name =>
      rcases enumBody_cases hn with ⟨error, he⟩ | ⟨body, hbody⟩
      · obtain ⟨hb', hc'⟩ := hw.opened hn he
        rw [hb'] at hb
        rw [hc'] at hc
        cases hb
        cases hc
        exact .opened
      · obtain ⟨builtin, own', hbase, hkind⟩ := h.integralEnums.base hbody
        rw [(h.integralEnums.as_base hw hbody).2.2, hw.builtinBehind?_builtin hbase] at hb
        rw [(complete_enum (view_enum hw hn)).mpr ⟨body, hbody⟩] at hc
        cases hb
        cases hc
        refine .finished ?_
        rcases hkind with hk | hk | hk <;> rw [hk] <;> rfl
  | bitfield base bits offset => cases hbits
  | classType name isStruct =>
      rw [Store.builtinBehind?, hself, ok_bind, shape_eq_ok.mpr ⟨_, hn, rfl⟩] at hb
      cases hb
      cases isStruct <;> exact .other rfl
  | _ =>
      rw [Store.builtinBehind?, hself, ok_bind, shape_eq_ok.mpr ⟨_, hn, rfl⟩] at hb
      cases hb
      exact .other rfl

/-! ### Fixed-point types -/

theorem shape_of_kind_fixed {τ π ν : Type} {shape : Shape τ π ν} (hk : shape.kind = .fixed) :
    ∃ fixed, shape = .builtin (.fixed fixed) := by
  cases shape with
  | builtin builtin =>
      cases builtin with
      | fixed fixed => exact ⟨fixed, rfl⟩
      | _ => cases hk
  | classType name isStruct => cases isStruct <;> cases hk
  | _ => cases hk

theorem fixedBits?_cases {behind : Option Builtin} (hb : store.builtinBehind? type = .ok behind) :
    (∃ fixed, behind = some (.fixed fixed) ∧
      store.fixedBits? type = .ok (some (fixed.bits store.target))) ∨
    ((¬∃ fixed, behind = some (.fixed fixed)) ∧ store.fixedBits? type = .ok none) := by
  rw [Store.fixedBits?, hb, ok_bind]
  cases behind with
  | none => exact Or.inr ⟨by simp, rfl⟩
  | some builtin =>
      cases builtin with
      | fixed fixed => exact Or.inl ⟨fixed, rfl, rfl⟩
      | _ => exact Or.inr ⟨by simp, rfl⟩

theorem WellFormed.sizeBits_fixed (hw : store.WellFormed) {fixed : FixedType} {own : Qual PathId}
    (hn : store.node? unit = some ⟨.builtin (.fixed fixed), own⟩) :
    ∃ size, store.sizeBits unit = .ok size ∧
      (fixed.bits store.target).sign.toNat + (fixed.bits store.target).integral.toNat +
        (fixed.bits store.target).fraction.toNat = size.toNat := by
  obtain ⟨size, hsize, htotal⟩ := FixedType.bits_fill store.target fixed
  refine ⟨size, ?_, htotal⟩
  have hbytes : store.size unit = .ok (fixed.bytes store.target) := by
    rw [Store.size, view_builtin hw hn]
    rfl
  rw [Store.sizeBits, shape_eq_ok.mpr ⟨_, hn, rfl⟩, ok_bind]
  dsimp only [Shape.bits?]
  rw [hbytes, ok_bind, hsize]
  rfl

/-! ### The questions fit together -/

/-- The arithmetic questions about a type are all answered, and the answers fit together. Nothing is
signed and unsigned; what is one of them is arithmetic and complete; what ranks is an integer and
complete; and what is divided into bits is a fixed-point type, whose parts make up the width of the
builtin type behind, which is that of the unit too. -/
structure CoherentAt (store : Store) (type : TypeId) : Prop where
  signs : ∃ signed unsigned arithmetic complete,
    outcome (Build.has type (.ofBuiltin .signed)) store = .ok signed ∧
    outcome (Build.has type (.ofBuiltin .unsigned)) store = .ok unsigned ∧
    outcome (Build.has type (.ofKind .arithmetic)) store = .ok arithmetic ∧
    outcome (Build.isComplete type) store = .ok complete ∧
    ¬(signed = true ∧ unsigned = true) ∧ (signed || unsigned) = (arithmetic && complete)
  rank : ∃ rank integer complete, store.integerRank? type = .ok rank ∧
    outcome (Build.has type (.ofKind .integer)) store = .ok integer ∧
    outcome (Build.isComplete type) store = .ok complete ∧
    rank.isSome = (integer && complete)
  fixedBits : ∃ bits fixed, store.fixedBits? type = .ok bits ∧
    outcome (Build.has type (.ofKind .fixed)) store = .ok fixed ∧ bits.isSome = fixed
  widths : ∀ bits, store.fixedBits? type = .ok (some bits) → ∃ unit builtin size,
    store.withoutBitfield type = .ok unit ∧ store.builtinBehind? type = .ok (some builtin) ∧
    store.sizeBits (.builtin builtin) = .ok size ∧ store.sizeBits unit = .ok size ∧
    bits.sign.toNat + bits.integral.toNat + bits.fraction.toNat = size.toNat

/-- In a store that requests led to, the arithmetic questions about every type fit together. -/
theorem Reachable.arithmetic_coherent (h : store.Reachable) (hh : store.Holds type) :
    store.CoherentAt type := by
  have hw := h.wellFormed
  obtain ⟨unit, node, behind, complete, hunit, hn, hb, hc, hclassed⟩ := h.exists_classed hh
  have hkind (trait : KindTrait) :
      outcome (Build.has type (.ofKind trait)) store = .ok (trait.holds node.shape.kind) := by
    rw [h.truthful.outcome_has, Store.has, hasKindTrait, seenKind_of_unit hunit hn]
    rfl
  have hbuiltin (trait : BuiltinTrait) :
      outcome (Build.has type (.ofBuiltin trait)) store =
        .ok (behind.any fun builtin => trait.holds builtin) := by
    rw [h.truthful.outcome_has, Store.has, hasBuiltinTrait, hb]
    rfl
  have hcomplete := (h.truthful.outcome_isComplete type).trans hc
  have hrank : store.integerRank? type = .ok (behind.bind Builtin.rank?) := by
    rw [Store.integerRank?, hb]
    rfl
  refine ⟨?signs, ?rank, ?fixedBits, ?widths⟩
  case signs =>
    exact ⟨_, _, _, _, hbuiltin .signed, hbuiltin .unsigned, hkind .arithmetic, hcomplete,
      hclassed.not_signed_and_unsigned, hclassed.signed_or_unsigned⟩
  case rank => exact ⟨_, _, _, hrank, hkind .integer, hcomplete, hclassed.isSome_rank?⟩
  case fixedBits =>
    rcases fixedBits?_cases hb with ⟨fixed, hbehind, hbits⟩ | ⟨hother, hbits⟩
    · refine ⟨_, _, hbits, hkind .fixed, ?_⟩
      simp [KindTrait.holds, hclassed.fixed_iff.mpr ⟨fixed, hbehind⟩]
    · refine ⟨_, _, hbits, hkind .fixed, ?_⟩
      simpa [KindTrait.holds] using hclassed.fixed_iff.not.mpr hother
  case widths =>
    intro bits hbits
    rcases fixedBits?_cases hb with ⟨fixed, rfl, hfixed⟩ | ⟨_, hnone⟩
    · cases hfixed.symm.trans hbits
      obtain ⟨shape, own⟩ := node
      obtain ⟨fixed', rfl⟩ := shape_of_kind_fixed (hclassed.fixed_iff.mpr ⟨fixed, rfl⟩)
      -- The builtin type behind is the unit itself, without its qualifiers.
      have hsame : store.builtinBehind? type = store.builtinBehind? unit :=
        builtinBehind?_eq_of_unit_eq (hunit.trans (hw.withoutBitfield_self hn rfl).symm)
      cases (hsame.symm.trans hb).symm.trans (hw.builtinBehind?_builtin hn)
      obtain ⟨size, hsize, htotal⟩ := hw.sizeBits_fixed (hw.node?_builtin (.fixed fixed))
      obtain ⟨size', hsize', htotal'⟩ := hw.sizeBits_fixed hn
      obtain rfl : size = size' := UInt64.toNat_inj.mp (htotal.symm.trans htotal')
      exact ⟨unit, _, size, hunit, hb, hsize, hsize', htotal⟩
    · cases hnone.symm.trans hbits

/-- A bit-field inside another one over an enum, before and after that is finished, and a bit-field
over a fixed-point type. -/
theorem Reachable.arithmetic_coherent_fields :
    let enum : TypeId := ⟨Builtin.all.length⟩
    let outer : TypeId := ⟨Builtin.all.length + 2⟩
    let accum : TypeId := ⟨Builtin.all.length + 3⟩
    let fixed : Builtin := .fixed ⟨.accum, .normal, false, true⟩
    let start := (Store.new .wide).afterAll [.path ["E"], .enter (.enumType ⟨1⟩),
      .enter (.bitfield enum 8 0), .enter (.bitfield ⟨Builtin.all.length + 1⟩ 3 5),
      .enter (.bitfield (.builtin fixed) 9 0)]
    let store := start.afterAll [.completeEnum (.new enum) (.builtin (.int ⟨.short, false⟩))]
    start.Reachable ∧ start.CoherentAt outer ∧ start.integerRank? outer = .ok none ∧
      store.Reachable ∧ store.CoherentAt outer ∧ store.integerRank? outer = .ok (some 2) ∧
      store.CoherentAt accum ∧ store.fixedBits? accum = .ok (some ⟨1, 15, 16⟩) := by
  intro enum outer accum fixed start store
  have hstart : start.Reachable := (reachable_new .wide).afterAll (by
    simp [Request.Countable, TypeRequest.Countable])
  have hstore : store.Reachable := hstart.afterAll (by simp [Request.Countable])
  exact ⟨hstart, hstart.arithmetic_coherent (node?_of_lt (by decide +kernel)), by decide +kernel,
    hstore, hstore.arithmetic_coherent (node?_of_lt (by decide +kernel)), by decide +kernel,
    hstore.arithmetic_coherent (node?_of_lt (by decide +kernel)), by decide +kernel⟩

end Store

end TypeGraph

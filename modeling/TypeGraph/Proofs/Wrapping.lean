import TypeGraph.Proofs.Varying

/-!
Bit-fields are classified as their bases. Main statements: the questions that look through
bit-fields are answered alike for all types with one unit (`Store.has_eq_of_unit_eq`), thus for a
bit-field and its base, and the one question that does not look through is answered alike unless the
base is a finished scoped enum (`Store.Reachable.classified_as_base`).
-/

namespace TypeGraph

/-- The questions about what is inside any number of bit-fields: those that the kind answers and
those that the builtin type behind answers. -/
def Trait.isInherited : Trait → Bool
  | .ofKind _ | .ofBuiltin _ | .real | .realFloat => true
  | _ => false

namespace Store

variable {store : Store} {type type' field base : TypeId} {bits offset : UInt32}
  {own : Qual PathId}

/-! ### Questions that look through bit-fields -/

theorem seenKind_of_unit {unit : TypeId} {node : Node}
    (hunit : store.withoutBitfield type = .ok unit) (hn : store.node? unit = some node) :
    store.seenKind type = .ok node.shape.kind := by
  rw [seenKind, hunit]
  exact kind_eq_ok.mpr ⟨node, hn, rfl⟩

theorem seenKind_eq_of_unit_eq (h : store.withoutBitfield type = store.withoutBitfield type') :
    store.seenKind type = store.seenKind type' := by
  rw [seenKind, seenKind, h]

theorem builtinBehind?_eq_of_unit_eq
    (h : store.withoutBitfield type = store.withoutBitfield type') :
    store.builtinBehind? type = store.builtinBehind? type' := by
  rw [Store.builtinBehind?, Store.builtinBehind?, h]

/-- What is inside the bit-fields answers an inherited question. -/
theorem has_eq_of_unit_eq (h : store.withoutBitfield type = store.withoutBitfield type')
    {trait : Trait} (ht : trait.isInherited = true) :
    store.has type trait = store.has type' trait := by
  have hkind := seenKind_eq_of_unit_eq h
  have hbuiltin := builtinBehind?_eq_of_unit_eq h
  cases trait with
  | ofKind trait => simp only [Store.has, hasKindTrait, hkind]
  | ofBuiltin trait => simp only [Store.has, hasBuiltinTrait, hbuiltin]
  | real | realFloat =>
      simp only [Store.has, isReal, hasKindTrait, hasBuiltinTrait, hkind, hbuiltin]
  | _ => cases ht

theorem Reachable.exists_has (h : store.Reachable) (hh : store.Holds type) {trait : Trait}
    (ht : trait.isInherited = true) : ∃ answer, store.has type trait = .ok answer := by
  obtain ⟨unit, node, hunit, hn, _⟩ := h.wellFormed.exists_withoutBitfield hh
  have hkind := seenKind_of_unit hunit hn
  obtain ⟨builtin, hbuiltin⟩ := h.wellFormed.exists_builtinBehind? h.integralEnums hh
  cases trait with
  | ofKind trait => exact ⟨_, by simp only [Store.has, hasKindTrait, hkind, ok_bind]; rfl⟩
  | ofBuiltin trait => exact ⟨_, by simp only [Store.has, hasBuiltinTrait, hbuiltin, ok_bind]; rfl⟩
  | real | realFloat =>
      simp only [Store.has, isReal, hasKindTrait, hasBuiltinTrait, hkind, hbuiltin]
      exact ⟨_, rfl⟩
  | _ => cases ht

/-! ### Bit-fields and their bases -/

theorem withoutBitfield_field (hw : store.WellFormed)
    (hn : store.node? field = some ⟨.bitfield base bits offset, own⟩) :
    store.withoutBitfield field = store.withoutBitfield base := by
  obtain ⟨part, rfl, hv⟩ := view_bitfield hw hn
  rw [Store.withoutBitfield, hv]
  rfl

theorem isScopedEnum_field {answer : Bool} (hk : store.hasKindTrait field .enum = .ok answer)
    (hn : store.node? field = some ⟨.bitfield base bits offset, own⟩) :
    store.isScopedEnum field = .ok false := by
  have hkind : store.kind field = .ok .bitfield := kind_eq_ok.mpr ⟨_, hn, rfl⟩
  have hbody : store.enumBody field = .error (.type (.notEnum field)) := by
    rw [Store.enumBody, Store.enumOwner, hkind]
    rfl
  rw [isScopedEnum, hk, ok_bind, hbody]
  cases answer <;> rfl

theorem isScopedEnum_eq_true (hw : store.WellFormed) :
    store.isScopedEnum type = .ok true ↔
      ∃ body, store.enumBody type = .ok body ∧ body.flavor = .scoped := by
  constructor
  · intro h
    obtain ⟨isEnum, _, h⟩ := bind_eq_ok.mp h
    cases isEnum with
    | false => cases h
    | true =>
        cases hb : store.enumBody type with
        | error failure => simp [hb] at h
        | ok body => exact ⟨body, rfl, by simpa [hb] using h⟩
  · rintro ⟨body, hb, hf⟩
    -- A body is found under an enum only, and that is its own unit.
    obtain ⟨owner, ho, _⟩ := enumBody_eq_ok.mp hb
    obtain ⟨⟨shape, own⟩, hn, hk, _⟩ := enumOwner_eq_ok.mp ho
    obtain ⟨name, rfl⟩ := shape_of_kind_enum hk
    have hunit : store.withoutBitfield type = .ok type := by
      rw [Store.withoutBitfield, view_enum hw hn]
      rfl
    have henum : store.hasKindTrait type .enum = .ok true := by
      rw [hasKindTrait, seenKind_of_unit hunit hn]
      rfl
    simp [isScopedEnum, henum, hb, hf, ok_bind]

theorem exists_isScopedEnum {isEnum : Bool} (hk : store.hasKindTrait type .enum = .ok isEnum) :
    ∃ answer, store.isScopedEnum type = .ok answer := by
  rw [isScopedEnum, hk, ok_bind]
  cases isEnum with
  | false => exact ⟨false, rfl⟩
  | true => cases store.enumBody type <;> exact ⟨_, rfl⟩

theorem Truthful.outcome_has (h : store.Truthful) (type : TypeId) (trait : Trait) :
    outcome (Build.has type trait) store = store.has type trait := by
  have hself : (store.noting store.settled).Truthful := h
  exact (Build.answers_has store type trait).outcome_eq hself

/-- A bit-field answers as its base: every question about the kind, which is that of the unit inside
both, and about the builtin type behind, and how the latter is divided and ranks. It is never a
scoped enum, though its base is one if it is a finished enum that was declared so. -/
structure ClassifiedAs (store : Store) (field base : TypeId) : Prop where
  unit : ∃ unit node, store.withoutBitfield field = .ok unit ∧
    store.withoutBitfield base = .ok unit ∧ store.node? unit = some node ∧
    node.shape.bits? = none ∧ ∀ trait : KindTrait,
      outcome (Build.has field (.ofKind trait)) store = .ok (trait.holds node.shape.kind)
  inherited : ∀ trait : Trait, trait.isInherited = true → ∃ answer,
    outcome (Build.has field trait) store = .ok answer ∧
    outcome (Build.has base trait) store = .ok answer
  fixedBits : ∃ answer, store.fixedBits? field = .ok answer ∧ store.fixedBits? base = .ok answer
  integerRank : ∃ answer,
    store.integerRank? field = .ok answer ∧ store.integerRank? base = .ok answer
  unscoped : outcome (Build.has field .scopedEnum) store = .ok false
  scopedBase : ∃ answer, outcome (Build.has base .scopedEnum) store = .ok answer ∧
    (answer = true ↔ ∃ body, store.enumBody base = .ok body ∧ body.flavor = .scoped)

/-- Bit-fields are classified as their bases, except over finished scoped enums. -/
theorem Reachable.classified_as_base (h : store.Reachable)
    (hn : store.node? field = some ⟨.bitfield base bits offset, own⟩) :
    store.ClassifiedAs field base := by
  have hw := h.wellFormed
  have hbase : store.Holds base := node?_of_lt ((hw.fits hn).base base rfl)
  have hunit := withoutBitfield_field hw hn
  have hsame := builtinBehind?_eq_of_unit_eq hunit
  obtain ⟨unit, node, hinner, hnode, hbits⟩ := hw.exists_withoutBitfield hbase
  obtain ⟨builtin, hbuiltin⟩ := hw.exists_builtinBehind? h.integralEnums hbase
  obtain ⟨isEnum, henum⟩ : ∃ isEnum, store.has base (.ofKind .enum) = .ok isEnum :=
    h.exists_has hbase rfl
  refine ⟨?_, fun trait ht => ?_, ?_, ?_, ?_, ?_⟩
  · refine ⟨unit, node, hunit.trans hinner, hinner, hnode, hbits, fun trait => ?_⟩
    rw [h.truthful.outcome_has, Store.has, hasKindTrait,
      seenKind_of_unit (hunit.trans hinner) hnode]
    rfl
  · obtain ⟨answer, ha⟩ := h.exists_has hbase ht
    rw [h.truthful.outcome_has, h.truthful.outcome_has, has_eq_of_unit_eq hunit ht]
    exact ⟨answer, ha, ha⟩
  · simp only [Store.fixedBits?, hsame, hbuiltin, ok_bind]
    cases builtin with
    | none => exact ⟨none, rfl, rfl⟩
    | some builtin => cases builtin <;> exact ⟨_, rfl, rfl⟩
  · simp only [Store.integerRank?, hsame, hbuiltin, ok_bind]
    exact ⟨_, rfl, rfl⟩
  · rw [h.truthful.outcome_has]
    exact isScopedEnum_field ((has_eq_of_unit_eq hunit rfl).trans henum) hn
  · obtain ⟨answer, ha⟩ := exists_isScopedEnum henum
    refine ⟨answer, (h.truthful.outcome_has base .scopedEnum).trans ha, ?_⟩
    rw [← isScopedEnum_eq_true hw, ha]
    simp

/-- A bit-field over a bit-field over an enum that is not scoped. -/
theorem Reachable.classified_as_base_nested :
    let int : TypeId := .builtin (.int ⟨.int, true⟩)
    let enum : TypeId := ⟨Builtin.all.length⟩
    let inner : TypeId := ⟨Builtin.all.length + 1⟩
    let outer : TypeId := ⟨Builtin.all.length + 2⟩
    let store := (Store.new .wide).afterAll [.path ["E"], .enter (.enumType ⟨1⟩),
      .completeEnum (.new enum) int, .enter (.bitfield enum 8 0), .enter (.bitfield inner 3 5)]
    store.Reachable ∧ store.node? outer = some ⟨.bitfield inner 3 5, Qual.none⟩ ∧
      store.ClassifiedAs outer inner := by
  intro int enum inner outer store
  have hr : store.Reachable := (reachable_new .wide).afterAll (by
    simp [Request.Countable, TypeRequest.Countable])
  have hn : store.node? outer = some ⟨.bitfield inner 3 5, Qual.none⟩ := by decide +kernel
  exact ⟨hr, hn, hr.classified_as_base hn⟩

/-- A bit-field over a finished scoped enum is an enum as that is, but it is not scoped. -/
theorem unscoped_field :
    let int : TypeId := .builtin (.int ⟨.int, true⟩)
    let enum : TypeId := ⟨Builtin.all.length⟩
    let field : TypeId := ⟨Builtin.all.length + 1⟩
    let store := (Store.new .wide).afterAll [.path ["E"], .enter (.enumType ⟨1⟩),
      .completeEnum { EnumDraft.new enum with flavor := .scoped } int,
      .enter (.bitfield enum 3 0)]
    store.Reachable ∧ store.node? field = some ⟨.bitfield enum 3 0, Qual.none⟩ ∧
      outcome (Build.has field (.ofKind .enum)) store = .ok true ∧
      outcome (Build.has enum .scopedEnum) store = .ok true ∧
      outcome (Build.has field .scopedEnum) store = .ok false := by
  intro int enum field store
  have hr : store.Reachable := (reachable_new .wide).afterAll (by
    simp [Request.Countable, TypeRequest.Countable])
  exact ⟨hr, by decide +kernel⟩

end Store

end TypeGraph

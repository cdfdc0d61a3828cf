import Mathlib.Algebra.Order.Floor.Div
import TypeGraph.Proofs.Varying

/-!
Sizes over unbounded numbers. Main statement: a size that is answered is the exact one, one that is
refused for its magnitude names a part that needs more than 64 bits, and wherever a part needs more
than 64 bits no size is answered (`Store.Reachable.size_exact`).
-/

namespace TypeGraph

/-! ### Checked arithmetic -/

/-- The least multiple of a positive `unit` that is at least `n`. -/
def roundUp (n unit : Nat) : Nat := n ⌈/⌉ unit * unit

theorem roundUp_le_iff {n unit bound : Nat} (h : 0 < unit) (hd : unit ∣ bound) :
    roundUp n unit ≤ bound ↔ n ≤ bound := by
  obtain ⟨count, rfl⟩ := hd
  rw [roundUp, Nat.mul_comm, Nat.mul_le_mul_left_iff h, ceilDiv_le_iff_le_mul h]

theorem dvd_roundUp (n unit : Nat) : unit ∣ roundUp n unit := Nat.dvd_mul_left unit _

theorem le_roundUp {n unit : Nat} (h : 0 < unit) : n ≤ roundUp n unit :=
  (roundUp_le_iff h (dvd_roundUp n unit)).mp (Nat.le_refl _)

/-- Bytes that a bit-field over units of `unit` bytes takes: those that its bits fill, up to whole
units unless these are empty. -/
def fieldBytes (target : Target) (bits : UInt32) (unit : Nat) : Nat :=
  let bytes := bits.toNat ⌈/⌉ target.byteBits.toNat
  if unit = 0 then bytes else roundUp bytes unit

/-- Bytes of a pointer or reference to what lies in `storage`: two words for far storage, one word
for any other. -/
def pointerBytes (target : Target) (storage : Storage) : Nat :=
  (if storage = .far then 2 else 1) * target.wordBytes.toNat

namespace Count

variable {α : Type} {f : α → Except Failure Count} {failure : Failure} {as : List α}

theorem roundUp?_eq (a unit : Count) : roundUp? a unit = ofNat? (roundUp a.toNat unit.toNat) := rfl

theorem sum_of_foldlM {total total' : Count}
    (h : as.foldlM (fun total a => do orFail failure (add? total (← f a))) total = .ok total') :
    ∃ sizes : List Count, List.Forall₂ (fun a size => f a = .ok size) as sizes ∧
      total'.toNat = total.toNat + (sizes.map UInt64.toNat).sum := by
  induction as generalizing total with
  | nil =>
      cases h
      exact ⟨[], .nil, rfl⟩
  | cons a as ih =>
      rw [List.foldlM_cons] at h
      obtain ⟨next, ha, h⟩ := bind_eq_ok.mp h
      obtain ⟨size, hsize, hnext⟩ := bind_eq_ok.mp ha
      obtain ⟨sizes, hsizes, htotal⟩ := ih h
      refine ⟨size :: sizes, .cons hsize hsizes, ?_⟩
      rw [htotal, ofNat?_eq_some_iff.mp (orFail_eq_ok.mp hnext), List.map_cons, List.sum_cons]
      omega

theorem overflow_of_foldlM {total : Count} {failure' : Failure}
    (h : as.foldlM (fun total a => do orFail failure (add? total (← f a))) total =
      .error failure') :
    (∃ a ∈ as, f a = .error failure') ∨ failure' = failure ∧ ∃ front sizes, front <+: as ∧
      List.Forall₂ (fun a size => f a = .ok size) front sizes ∧
      UInt64.size ≤ total.toNat + (sizes.map UInt64.toNat).sum := by
  induction as generalizing total with
  | nil => cases h
  | cons a as ih =>
      rw [List.foldlM_cons] at h
      rcases bind_eq_error.mp h with ha | ⟨next, ha, h⟩
      · rcases bind_eq_error.mp ha with ha | ⟨size, hsize, ha⟩
        · exact Or.inl ⟨a, List.mem_cons_self, ha⟩
        · obtain ⟨hnone, rfl⟩ := orFail_eq_error.mp ha
          refine Or.inr ⟨rfl, [a], [size], ⟨as, rfl⟩, .cons hsize .nil, ?_⟩
          simpa using ofNat?_eq_none_iff.mp hnone
      · obtain ⟨size, hsize, hnext⟩ := bind_eq_ok.mp ha
        have hsum := ofNat?_eq_some_iff.mp (orFail_eq_ok.mp hnext)
        rcases ih h with ⟨other, hm, ho⟩ | ⟨rfl, front, sizes, hfront, hsizes, hle⟩
        · exact Or.inl ⟨other, List.mem_cons_of_mem a hm, ho⟩
        · refine Or.inr ⟨rfl, a :: front, size :: sizes, List.cons_prefix_cons.mpr ⟨rfl, hfront⟩,
            .cons hsize hsizes, ?_⟩
          rw [List.map_cons, List.sum_cons]
          omega

end Count

namespace Store

variable {store : Store} {type part : TypeId}

/-! ### Exact sizes -/

/-- The exact size of a type, in bytes: that of a builtin type is in the table of the machine, that
of a class is in its body, that of an enum is the one of the type it is stored as, and the others
follow from the sizes of what the type is built from. -/
inductive Measures (store : Store) : TypeId → Nat → Prop where
  | builtin {type : TypeId} {builtin : Builtin} {size : Count} {own : Qual PathId}
      (node : store.node? type = some ⟨.builtin builtin, own⟩)
      (table : builtin.size? store.target = some size) : Measures store type size.toNat
  | array {type base : TypeId} {count : Count} {element : Nat} {own : Qual PathId}
      (node : store.node? type = some ⟨.array base (.fixed count), own⟩)
      (inside : Measures store base element) : Measures store type (count.toNat * element)
  | bitfield {type base : TypeId} {bits offset : UInt32} {unit : Nat} {own : Qual PathId}
      (node : store.node? type = some ⟨.bitfield base bits offset, own⟩)
      (inside : Measures store base unit) :
      Measures store type (fieldBytes store.target bits unit)
  | pointer {type base : TypeId} {own qual : Qual PathId}
      (node : store.node? type = some ⟨.pointer base, own⟩) (qual_eq : store.qual base = .ok qual) :
      Measures store type (pointerBytes store.target qual.space.storage)
  | leftRef {type base : TypeId} {own qual : Qual PathId}
      (node : store.node? type = some ⟨.leftRef base, own⟩) (qual_eq : store.qual base = .ok qual) :
      Measures store type (pointerBytes store.target qual.space.storage)
  | rightRef {type base : TypeId} {own qual : Qual PathId}
      (node : store.node? type = some ⟨.rightRef base, own⟩)
      (qual_eq : store.qual base = .ok qual) :
      Measures store type (pointerBytes store.target qual.space.storage)
  | memberPointer {type owner base : TypeId} {own : Qual PathId}
      (node : store.node? type = some ⟨.memberPointer owner base, own⟩) :
      Measures store type store.target.wordBytes.toNat
  | tuple {type : TypeId} {set : ParamSetId} {params : ParamSet} {sizes : List Nat}
      {own : Qual PathId} (node : store.node? type = some ⟨.tuple set, own⟩)
      (params_eq : store.paramSet set = .ok params)
      (inside : List.Forall₂ (Measures store) params.types sizes) :
      Measures store type (roundUp sizes.sum store.target.wordBytes.toNat)
  | classType {type : TypeId} {name : PathId} {isStruct : Bool} {body : ClassBody}
      {own : Qual PathId} (node : store.node? type = some ⟨.classType name isStruct, own⟩)
      (body_eq : store.classBody type = .ok body) : Measures store type body.size.toNat
  | enumType {type : TypeId} {name : PathId} {body : EnumBody} {size : Nat} {own : Qual PathId}
      (node : store.node? type = some ⟨.enumType name, own⟩)
      (body_eq : store.enumBody type = .ok body) (stored : Measures store body.base size) :
      Measures store type size

/-- A value of a type has one of another type inside it: as an element, as the unit that its bits
lie in, or as a component. -/
inductive Embeds (store : Store) (type : TypeId) : TypeId → Prop where
  | element {base : TypeId} {extent : Extent} {own : Qual PathId}
      (node : store.node? type = some ⟨.array base extent, own⟩) : Embeds store type base
  | unit {base : TypeId} {bits offset : UInt32} {own : Qual PathId}
      (node : store.node? type = some ⟨.bitfield base bits offset, own⟩) : Embeds store type base
  | component {part : TypeId} {set : ParamSetId} {params : ParamSet} {own : Qual PathId}
      (node : store.node? type = some ⟨.tuple set, own⟩)
      (params_eq : store.paramSet set = .ok params) (mem : part ∈ params.types) :
      Embeds store type part

theorem Embeds.mentions (h : store.Embeds type part) : store.Mentions type part := by
  cases h with
  | element hn | unit hn => exact .base hn rfl
  | component hn hp hm => exact .listed hn rfl hp hm

/-- A type needs more than 64 bits for its exact size, or is a tuple that has none for want of one
of a component, and the components that it starts with need more than 64 bits already. -/
def TooLarge (store : Store) (type : TypeId) : Prop :=
  (∃ size, store.Measures type size ∧ UInt64.size ≤ size) ∨
    ∃ set own params, store.node? type = some ⟨.tuple set, own⟩ ∧
      store.paramSet set = .ok params ∧
      (∃ part ∈ params.types, ∀ size, ¬ store.Measures part size) ∧
      ∃ front sizes, front <+: params.types ∧ List.Forall₂ store.Measures front sizes ∧
        UInt64.size ≤ sizes.sum

/-! ### The size of a type from those of its parts -/

theorem size_tuple (hw : store.WellFormed) {set : ParamSetId} {params : ParamSet}
    {own : Qual PathId} (hn : store.node? type = some ⟨.tuple set, own⟩)
    (hp : store.paramSet set = .ok params) :
    store.size type = (do
      let total ← params.types.foldlM (fun total part => do
        orFail (.type (.sizeOverflow type))
          (Count.add? total (← (store.size part).mapError (·.blame type)))) 0
      orFail (.type (.sizeOverflow type)) (store.target.roundToWord? total)) := by
  obtain ⟨seen, hv⟩ := hw.view hn
  cases rel_of_view hn hv with
  | @tuple _ parts hparts =>
      obtain ⟨params', hp', hrel⟩ := hparts
      cases hp.symm.trans hp'
      have htypes : params.types = parts.types.map Below.type := by
        rw [← List.forall₂_eq_eq_eq, List.forall₂_map_right_iff]
        exact hrel.types.imp fun _ _ => Eq.symm
      rw [Store.size, hv, htypes, List.foldlM_map]
      rfl

theorem pointerSize_eq_ok {size : Count} (h : store.pointerSize type = .ok size) :
    ∃ qual, store.qual type = .ok qual ∧
      size.toNat = pointerBytes store.target qual.space.storage := by
  obtain ⟨qual, hq, h⟩ := bind_eq_ok.mp h
  refine ⟨qual, hq, ?_⟩
  cases h
  rw [pointerBytes]
  split <;> cases store.target <;> rfl

theorem size_array (hw : store.WellFormed) {base : TypeId} {count : Count} {own : Qual PathId}
    (hn : store.node? type = some ⟨.array base (.fixed count), own⟩) :
    store.size type = (do
      let element ← store.size base
      orFail (.type (.sizeOverflow type)) (Count.ofNat? (count.toNat * element.toNat))) := by
  obtain ⟨below, rfl, hv⟩ := view_array hw hn
  rw [Store.size, hv]
  rfl

theorem size_bitfield (hw : store.WellFormed) {base : TypeId} {bits offset : UInt32}
    {own : Qual PathId} (hn : store.node? type = some ⟨.bitfield base bits offset, own⟩) :
    store.size type = (do
      let unit ← store.size base
      orFail (.type (.sizeOverflow type))
        (Count.ofNat? (fieldBytes store.target bits unit.toNat))) := by
  obtain ⟨below, rfl, hv⟩ := view_bitfield hw hn
  rw [Store.size, hv, ok_bind]
  refine bind_congr fun unit => ?_
  have hbytes : (Count.ceilDiv bits.toUInt64 store.target.byteBits).toNat =
      bits.toNat ⌈/⌉ store.target.byteBits.toNat := by
    rw [Count.toNat_ceilDiv (by cases store.target <;> decide), UInt32.toNat_toUInt64]
    rfl
  rw [fieldBytes, ← hbytes]
  by_cases hzero : unit = 0
  · subst hzero
    rw [if_pos rfl, UInt64.toNat_zero, if_pos rfl, Count.ofNat?_toNat]
    rfl
  · have hnonzero : unit.toNat ≠ 0 := fun h => hzero (UInt64.toNat_inj.mp h)
    rw [if_neg hzero, if_neg hnonzero, Count.roundUp?_eq]

/-! ### What is answered is exact -/

theorem measures_components {types : List TypeId} {whole : TypeId} {sizes : List Count}
    (ih : ∀ part ∈ types, ∀ size, store.size part = .ok size → store.Measures part size.toNat)
    (h : List.Forall₂ (fun part size => (store.size part).mapError (·.blame whole) = .ok size)
      types sizes) : List.Forall₂ store.Measures types (sizes.map UInt64.toNat) := by
  rw [List.forall₂_map_right_iff]
  induction h with
  | nil => exact .nil
  | cons hsize _ ih' =>
      refine .cons (ih _ List.mem_cons_self _ (mapError_eq_ok.mp hsize)) (ih' ?_)
      exact fun part hm => ih part (List.mem_cons_of_mem _ hm)

/-- A size that is answered is the exact one. -/
theorem measures_of_size (hw : store.WellFormed) {size : Count} (h : store.size type = .ok size) :
    store.Measures type size.toNat := by
  induction hi : type.index using Nat.strongRecOn generalizing type size with
  | _ i ih =>
      subst hi
      have hpart {part : TypeId} {size : Count} (hm : store.Mentions type part)
          (hs : store.size part = .ok size) : store.Measures part size.toNat :=
        ih part.index (hw.lt_of_mentions hm) hs rfl
      have hs := h
      rw [Store.size] at hs
      obtain ⟨seen, hv, hs⟩ := bind_eq_ok.mp hs
      obtain ⟨⟨shape, own⟩, hn⟩ := holds_of_view hv
      cases rel_of_view hn hv with
      | builtin builtin => exact .builtin hn (orFail_eq_ok.mp hs)
      | @array base below extent hbase =>
          subst hbase
          cases extent with
          | fixed count =>
              rw [size_array hw hn] at h
              obtain ⟨element, helement, h⟩ := bind_eq_ok.mp h
              rw [Count.ofNat?_eq_some_iff.mp (orFail_eq_ok.mp h)]
              exact .array hn (hpart (.base hn rfl) helement)
          | _ => cases hs
      | @bitfield base below bits offset hbase =>
          subst hbase
          rw [size_bitfield hw hn] at h
          obtain ⟨unit, hunit, h⟩ := bind_eq_ok.mp h
          rw [Count.ofNat?_eq_some_iff.mp (orFail_eq_ok.mp h)]
          exact .bitfield hn (hpart (.base hn rfl) hunit)
      | @pointer _ below hbase =>
          subst hbase
          obtain ⟨qual, hq, hsize⟩ := pointerSize_eq_ok hs
          exact hsize ▸ .pointer hn hq
      | @leftRef _ below hbase =>
          subst hbase
          obtain ⟨qual, hq, hsize⟩ := pointerSize_eq_ok hs
          exact hsize ▸ .leftRef hn hq
      | @rightRef _ below hbase =>
          subst hbase
          obtain ⟨qual, hq, hsize⟩ := pointerSize_eq_ok hs
          exact hsize ▸ .rightRef hn hq
      | memberPointer _ _ =>
          cases hs
          exact .memberPointer hn
      | function _ _ _ | memberFunction _ _ _ _ => cases hs
      | tuple hparts =>
          obtain ⟨params, hp, _⟩ := hparts
          rw [size_tuple hw hn hp] at h
          obtain ⟨total, hfold, h⟩ := bind_eq_ok.mp h
          obtain ⟨sizes, hsizes, htotal⟩ := Count.sum_of_foldlM hfold
          rw [Count.ofNat?_eq_some_iff.mp (orFail_eq_ok.mp h), htotal, UInt64.toNat_zero,
            Nat.zero_add]
          exact .tuple hn hp (measures_components
            (fun part hm size => hpart (.listed hn rfl hp hm)) hsizes)
      | classType _ _ =>
          obtain ⟨body, hb, hs⟩ := bind_eq_ok.mp hs
          cases hs
          exact .classType hn hb
      | enumType _ =>
          obtain ⟨builtin, hstorage, hs⟩ := bind_eq_ok.mp hs
          obtain ⟨body, hb, hbase⟩ := enumStorage_eq_ok.mp hstorage
          obtain ⟨⟨shape, own'⟩, hn', hshape⟩ := builtinOf?_eq_ok.mp hbase
          cases shape with
          | builtin type =>
              cases hshape
              exact .enumType hn hb (.builtin hn' (orFail_eq_ok.mp hs))
          | _ => cases hshape

theorem Measures.unique (hw : store.WellFormed) (hi : store.IntegralEnums) {size size' : Nat}
    (h : store.Measures type size) (h' : store.Measures type size') : size = size' := by
  induction type using (hw.wellFounded_leadsTo hi).induction generalizing size size' with
  | _ type ih =>
      cases h with
      | builtin hn table =>
          cases h' with
          | builtin hn' table' =>
              cases hn.symm.trans hn'
              cases table.symm.trans table'
              rfl
          | _ hn' => cases hn.symm.trans hn'
      | array hn inside =>
          cases h' with
          | array hn' inside' =>
              cases hn.symm.trans hn'
              rw [ih _ (.named (.base hn rfl)) inside inside']
          | _ hn' => cases hn.symm.trans hn'
      | bitfield hn inside =>
          cases h' with
          | bitfield hn' inside' =>
              cases hn.symm.trans hn'
              rw [ih _ (.named (.base hn rfl)) inside inside']
          | _ hn' => cases hn.symm.trans hn'
      | pointer hn hq | leftRef hn hq | rightRef hn hq =>
          cases h' with
          | pointer hn' hq' | leftRef hn' hq' | rightRef hn' hq' =>
              cases hn.symm.trans hn' <;> cases hq.symm.trans hq' <;> rfl
          | _ hn' => cases hn.symm.trans hn'
      | memberPointer hn =>
          cases h' with
          | memberPointer hn' => rfl
          | _ hn' => cases hn.symm.trans hn'
      | tuple hn hp inside =>
          cases h' with
          | tuple hn' hp' inside' =>
              cases hn.symm.trans hn'
              cases hp.symm.trans hp'
              have hmem := forall₂_mem_right inside.flip
              rw [forall₂_unique (fun a b c ha hb => ih c (.named (.listed hn rfl hp ha.1)) ha.2 hb)
                hmem inside'.flip]
          | _ hn' => cases hn.symm.trans hn'
      | classType hn hb =>
          cases h' with
          | classType hn' hb' =>
              cases hb.symm.trans hb'
              rfl
          | _ hn' => cases hn.symm.trans hn'
      | enumType hn hb stored =>
          cases h' with
          | enumType hn' hb' stored' =>
              cases hb.symm.trans hb'
              exact ih _ (.stored hb) stored stored'
          | _ hn' => cases hn.symm.trans hn'

/-! ### What is refused for its magnitude is too large -/

theorem TooLarge.ofFront {set : ParamSetId} {params : ParamSet} {own : Qual PathId}
    (hn : store.node? type = some ⟨.tuple set, own⟩) (hp : store.paramSet set = .ok params)
    {front : List TypeId} {sizes : List Nat} (hfront : front <+: params.types)
    (hsizes : List.Forall₂ store.Measures front sizes) (hle : UInt64.size ≤ sizes.sum) :
    store.TooLarge type := by
  by_cases hall : ∀ part ∈ params.types, ∃ size, store.Measures part size
  · obtain ⟨back, hback⟩ := hfront
    obtain ⟨sizes', hsizes'⟩ := forall₂_exists fun part (hm : part ∈ back) =>
      hall part (hback ▸ List.mem_append_right front hm)
    have hall : List.Forall₂ store.Measures params.types (sizes ++ sizes') :=
      hback ▸ List.rel_append hsizes hsizes'
    refine Or.inl ⟨_, .tuple hn hp hall, ?_⟩
    have hround := le_roundUp (n := (sizes ++ sizes').sum) store.target.wordBytes_pos
    rw [List.sum_append] at hround ⊢
    omega
  · push Not at hall
    exact Or.inr ⟨set, own, params, hn, hp, hall, front, sizes, hfront, hsizes, hle⟩

theorem tooLarge_of_base (hw : store.WellFormed) {base : TypeId} {derive : Nat → Nat}
    (hexact : ∀ {size}, store.Measures base size → store.Measures type (derive size))
    (h : (do
      let inner ← store.size base
      orFail (.type (.sizeOverflow type)) (Count.ofNat? (derive inner.toNat))) =
        .error (.type (.sizeOverflow part))) :
    store.size base = .error (.type (.sizeOverflow part)) ∨
      part = type ∧ store.TooLarge type := by
  rcases bind_eq_error.mp h with h | ⟨inner, hinner, h⟩
  · exact Or.inl h
  · obtain ⟨hnone, hfailure⟩ := orFail_eq_error.mp h
    cases hfailure
    exact Or.inr ⟨rfl, Or.inl ⟨_, hexact (measures_of_size hw hinner),
      Count.ofNat?_eq_none_iff.mp hnone⟩⟩

theorem tooLarge_of_tuple (hw : store.WellFormed) {set : ParamSetId} {params : ParamSet}
    {own : Qual PathId} (hn : store.node? type = some ⟨.tuple set, own⟩)
    (hp : store.paramSet set = .ok params)
    (h : store.size type = .error (.type (.sizeOverflow part))) :
    (∃ inner ∈ params.types, store.size inner = .error (.type (.sizeOverflow part))) ∨
      part = type ∧ store.TooLarge type := by
  rw [size_tuple hw hn hp] at h
  rcases bind_eq_error.mp h with h | ⟨total, hfold, h⟩
  · rcases Count.overflow_of_foldlM h with
      ⟨inner, hm, h⟩ | ⟨hfailure, front, sizes, hfront, hsizes, hle⟩
    · exact Or.inl ⟨inner, hm, (blame_eq_error (by simp)).mp h⟩
    · cases hfailure
      exact Or.inr ⟨rfl, .ofFront hn hp hfront (measures_components
        (fun _ _ _ => measures_of_size hw) hsizes) (by simpa using hle)⟩
  · obtain ⟨hnone, hfailure⟩ := orFail_eq_error.mp h
    cases hfailure
    obtain ⟨sizes, hsizes, htotal⟩ := Count.sum_of_foldlM hfold
    refine Or.inr ⟨rfl, Or.inl ⟨_, .tuple hn hp (measures_components
      (fun _ _ _ => measures_of_size hw) hsizes), ?_⟩⟩
    have hle := Count.ofNat?_eq_none_iff.mp hnone
    rwa [← Nat.zero_add (List.sum _), ← UInt64.toNat_zero, ← htotal]

/-- A size that is refused for its magnitude names a part that is too large. -/
theorem tooLarge_of_size (hw : store.WellFormed) (hs : store.StoresEnums) (hh : store.Holds type)
    (h : store.size type = .error (.type (.sizeOverflow part))) :
    Relation.ReflTransGen store.Embeds type part ∧ store.TooLarge part := by
  induction hi : type.index using Nat.strongRecOn generalizing type with
  | _ i ih =>
      subst hi
      have hinside {inner : TypeId} (he : store.Embeds type inner)
          (h : store.size inner = .error (.type (.sizeOverflow part))) :
          Relation.ReflTransGen store.Embeds type part ∧ store.TooLarge part := by
        have hm := he.mentions
        obtain ⟨hreach, hlarge⟩ :=
          ih inner.index (hw.lt_of_mentions hm) (hw.holds_of_mentions hh hm) h rfl
        exact ⟨.head he hreach, hlarge⟩
      have hsize := h
      rw [Store.size] at hsize
      obtain ⟨⟨shape, own⟩, hn⟩ := hh
      obtain ⟨seen, hv⟩ := hw.view hn
      rw [hv, ok_bind] at hsize
      cases rel_of_view hn hv with
      | builtin builtin => simp [orFail_eq_error] at hsize
      | @array base below extent hbase =>
          subst hbase
          cases extent with
          | fixed count =>
              rw [size_array hw hn] at h
              rcases tooLarge_of_base hw (.array hn) h with h | ⟨rfl, hlarge⟩
              · exact hinside (.element hn) h
              · exact ⟨.refl, hlarge⟩
          | _ => cases hsize
      | @bitfield base below bits offset hbase =>
          subst hbase
          rw [size_bitfield hw hn] at h
          rcases tooLarge_of_base hw (.bitfield hn) h with h | ⟨rfl, hlarge⟩
          · exact hinside (.unit hn) h
          · exact ⟨.refl, hlarge⟩
      | @pointer _ below _ | @leftRef _ below _ | @rightRef _ below _ =>
          obtain ⟨size, hpointer⟩ := exists_pointerSize ((holds_of_view hv).below below)
          cases hpointer.symm.trans hsize
      | memberPointer _ _ | function _ _ _ | memberFunction _ _ _ _ => cases hsize
      | tuple hparts =>
          obtain ⟨params, hp, _⟩ := hparts
          rcases tooLarge_of_tuple hw hn hp h with ⟨inner, hm, h⟩ | ⟨rfl, hlarge⟩
          · exact hinside (.component hn hp hm) h
          · exact ⟨.refl, hlarge⟩
      | classType _ _ =>
          rcases bind_eq_error.mp hsize with hsize | ⟨body, _, hsize⟩
          · cases classBody_eq_error hn hsize
          · cases hsize
      | enumType _ =>
          rcases bind_eq_error.mp hsize with hsize | ⟨builtin, _, hsize⟩
          · cases hs.enumStorage_eq_error hn hsize
          · simp [orFail_eq_error] at hsize

/-! ### What is too large is refused -/

theorem Embeds.sized (hw : store.WellFormed) (he : store.Embeds type part) {size : Count}
    (h : store.size type = .ok size) : ∃ size, store.size part = .ok size := by
  cases he with
  | element hn =>
      obtain ⟨below, rfl, hv⟩ := view_array hw hn
      rw [Store.size, hv, ok_bind] at h
      dsimp only at h
      split at h
      · obtain ⟨element, helement, _⟩ := bind_eq_ok.mp h
        exact ⟨element, helement⟩
      · cases h
      · cases h
      · cases h
  | unit hn =>
      obtain ⟨below, rfl, hv⟩ := view_bitfield hw hn
      rw [Store.size, hv, ok_bind] at h
      obtain ⟨unit, hunit, _⟩ := bind_eq_ok.mp h
      exact ⟨unit, hunit⟩
  | @component set params own hn hp hm =>
      rw [size_tuple hw hn hp] at h
      obtain ⟨total, hfold, _⟩ := bind_eq_ok.mp h
      have hall : ∀ part ∈ params.types, ∃ size, store.size part = .ok size := by
        refine forall_of_foldlM_eq_ok (fun total part _ total' hstep => ?_) hfold
        obtain ⟨size, hsize, _⟩ := bind_eq_ok.mp hstep
        exact ⟨size, mapError_eq_ok.mp hsize⟩
      exact hall _ hm

theorem sized_of_embeds (hw : store.WellFormed)
    (he : Relation.ReflTransGen store.Embeds type part) {size : Count}
    (h : store.size type = .ok size) : ∃ size, store.size part = .ok size := by
  induction he with
  | refl => exact ⟨size, h⟩
  | tail _ hstep ih =>
      obtain ⟨size, hsize⟩ := ih
      exact hstep.sized hw hsize

/-- A type has one exact size at most. A size that is answered is the exact one. One that is refused
for its magnitude names a part, perhaps the type itself, that is too large; and where some part
needs more than 64 bits for its exact size, no size is answered. -/
theorem Reachable.size_exact (h : store.Reachable) (hh : store.Holds type) :
    (∀ size size', store.Measures type size → store.Measures type size' → size = size') ∧
    (∀ size, store.size type = .ok size → store.Measures type size.toNat) ∧
    (∀ part, store.size type = .error (.type (.sizeOverflow part)) →
      Relation.ReflTransGen store.Embeds type part ∧ store.TooLarge part) ∧
    ∀ part size, Relation.ReflTransGen store.Embeds type part → store.Measures part size →
      UInt64.size ≤ size → ∀ size, store.size type ≠ .ok size := by
  have hw := h.wellFormed
  have hi := h.integralEnums
  refine ⟨fun _ _ hs hs' => hs.unique hw hi hs', fun _ => measures_of_size hw,
    fun _ => tooLarge_of_size hw h.storesEnums hh, fun part size he hexact hle whole hs => ?_⟩
  obtain ⟨answer, hanswer⟩ := sized_of_embeds hw he hs
  have hlt := answer.toNat_lt_size
  rw [← hexact.unique hw hi (measures_of_size hw hanswer)] at hlt
  exact Nat.not_le.mpr hlt hle

/-- An array of no elements that are too large has nothing to store, and still no size. -/
theorem Reachable.size_exact_empty :
    let int : TypeId := .builtin (.int ⟨.int, true⟩)
    let row : TypeId := ⟨Builtin.all.length⟩
    let rows : TypeId := ⟨Builtin.all.length + 1⟩
    let store := (Store.new .wide).afterAll
      [.enter (.array int (.fixed 0x4000000000000000)), .enter (.array row (.fixed 0))]
    store.Reachable ∧ store.Holds rows ∧ store.Measures rows 0 ∧
      store.size rows = .error (.type (.sizeOverflow row)) ∧
      Relation.ReflTransGen store.Embeds rows row ∧ store.TooLarge row := by
  intro int row rows store
  have hr : store.Reachable := (reachable_new .wide).afterAll (by
    simp [Request.Countable, TypeRequest.Countable])
  have hh : store.Holds rows := node?_of_lt (by decide +kernel)
  have hint : store.Measures int 4 := .builtin
    (show store.node? int = some (.plain (.builtin (.int ⟨.int, true⟩))) by decide +kernel) rfl
  have hrow : store.Measures row (0x4000000000000000 * 4) := .array
    (show store.node? row = some (.plain (.array int (.fixed 0x4000000000000000))) by
      decide +kernel) hint
  have hrows : store.Measures rows (0 * _) := .array
    (show store.node? rows = some (.plain (.array row (.fixed 0))) by decide +kernel) hrow
  have hs : store.size rows = .error (.type (.sizeOverflow row)) := by decide +kernel
  obtain ⟨hin, hlarge⟩ := (hr.size_exact hh).2.2.1 row hs
  exact ⟨hr, hh, Nat.zero_mul _ ▸ hrows, hs, hin, hlarge⟩

end Store

end TypeGraph

import TypeGraph.Proofs.Asking
import TypeGraph.Proofs.Entering
import TypeGraph.Proofs.Identity
import TypeGraph.Proofs.Safety

/-!
Variants of a type. Main statement: the variant with given qualifiers is one and the same from
whichever variant it is asked for, now and later, and the variants that are listed are all there
are, oldest first (`Store.Reachable.qualify_alike`).
-/

namespace TypeGraph

/-! ### The type without qualifiers is the oldest -/

/-- No type is older than the one of its shape without qualifiers. -/
def PlainFirst (nodes : Table Node) : Prop :=
  ∀ place node, nodes.get? place = some node →
    ∃ first ≤ place, nodes.get? first = some (.plain node.shape)

theorem plainFirst_builtinNodes : PlainFirst Store.builtinNodes := by
  intro place node hn
  obtain ⟨type, rfl⟩ := Store.mem_builtinNodes.mp (Table.mem_of_get? hn)
  exact ⟨place, Nat.le_refl place, hn⟩

theorem PlainFirst.enters {old new : Table Node} (h : PlainFirst old) (he : Enters old new) :
    PlainFirst new := by
  intro place node hn
  cases he with
  | plain shape =>
      rcases Table.get?_insert_cases hn with hold | ⟨rfl, _⟩
      · obtain ⟨first, hle, hfirst⟩ := h place node hold
        exact ⟨first, hle, Table.get?_insert_of_get? _ hfirst⟩
      · exact ⟨place, Nat.le_refl place, hn⟩
  | variant hsource qual =>
      rcases Table.get?_insert_cases hn with hold | ⟨rfl, hsize⟩
      · obtain ⟨first, hle, hfirst⟩ := h place node hold
        exact ⟨first, hle, Table.get?_insert_of_get? _ hfirst⟩
      · -- The new variant stands at the end, behind the type that it is a variant of.
        obtain ⟨first, hle, hfirst⟩ := h _ _ hsource
        have hlt := Table.lt_size_of_get? hsource
        exact ⟨first, by omega, Table.get?_insert_of_get? _ hfirst⟩

theorem PlainFirst.entered {old new : Table Node} (h : PlainFirst old)
    (he : Relation.ReflTransGen Enters old new) : PlainFirst new := by
  induction he with
  | refl => exact h
  | tail _ henters ih => exact ih.enters henters

namespace Store

variable {store old new : Store} {type variant plain : TypeId} {own : Qual PathId}

theorem Reachable.plainFirst (h : store.Reachable) : PlainFirst store.nodes := by
  obtain ⟨target, hruns⟩ := h
  exact plainFirst_builtinNodes.entered hruns.registers

/-! ### One variant for each set of qualifiers -/

theorem WellFormed.unqualified_eq_ok (hw : store.WellFormed) :
    store.unqualified type = .ok plain ↔ ∃ shape own, store.node? type = some ⟨shape, own⟩ ∧
      store.node? plain = some (.plain shape) := by
  rw [Store.unqualified_eq_ok]
  constructor
  · rintro ⟨node, hn, rfl⟩
    exact ⟨node.shape, node.qual, hn, node?_idOf (hw.plain type node hn)⟩
  · rintro ⟨shape, own, hn, hp⟩
    exact ⟨_, hn, idOf_of_node? hp⟩

theorem Reachable.le_of_unqualified (h : store.Reachable)
    (hu : store.unqualified type = .ok plain) : plain.index ≤ type.index := by
  obtain ⟨shape, own, hn, hp⟩ := h.wellFormed.unqualified_eq_ok.mp hu
  obtain ⟨first, hle, hfirst⟩ := h.plainFirst type.index _ hn
  rwa [Table.get?_inj hp hfirst]

/-- Types with one unqualified type have one shape. -/
theorem WellFormed.shape_eq (hw : store.WellFormed) (ht : store.unqualified type = .ok plain)
    (hv : store.unqualified variant = .ok plain) : store.shape type = store.shape variant := by
  obtain ⟨shape, own, hn, hp⟩ := hw.unqualified_eq_ok.mp ht
  obtain ⟨shape', own', hn', hp'⟩ := hw.unqualified_eq_ok.mp hv
  obtain rfl : shape = shape' := congrArg Node.shape (Option.some.inj (hp.symm.trans hp'))
  rw [shape_eq_ok.mpr ⟨_, hn, rfl⟩, shape_eq_ok.mpr ⟨_, hn', rfl⟩]

/-- Types with one unqualified type differ in their qualifiers. -/
theorem WellFormed.eq_of_qual_eq (hw : store.WellFormed) (ht : store.unqualified type = .ok plain)
    (hv : store.unqualified variant = .ok plain) (hq : store.qual type = store.qual variant) :
    type = variant := by
  obtain ⟨shape, own, hn, hp⟩ := hw.unqualified_eq_ok.mp ht
  obtain ⟨shape', own', hn', hp'⟩ := hw.unqualified_eq_ok.mp hv
  obtain rfl : shape = shape' := congrArg Node.shape (Option.some.inj (hp.symm.trans hp'))
  rw [qual_eq_ok.mpr ⟨_, hn, rfl⟩, qual_eq_ok.mpr ⟨_, hn', rfl⟩] at hq
  obtain rfl : own = own' := Except.ok.inj hq
  exact type_eq_of_node_eq hn hn'

theorem WellFormed.unqualified_plain (hw : store.WellFormed)
    (hu : store.unqualified type = .ok plain) :
    store.unqualified plain = .ok plain ∧ store.qual plain = .ok Qual.none := by
  obtain ⟨shape, own, _, hp⟩ := hw.unqualified_eq_ok.mp hu
  exact ⟨hw.unqualified_eq_ok.mpr ⟨shape, _, hp, hp⟩, qual_eq_ok.mpr ⟨_, hp, rfl⟩⟩

theorem Extends.qual (h : old.Extends new) (hq : old.qual type = .ok own) :
    new.qual type = .ok own := by
  obtain ⟨node, hn, hq⟩ := qual_eq_ok.mp hq
  exact qual_eq_ok.mpr ⟨node, h.node? hn, hq⟩

/-- Asking for a variant gives the same from every variant. -/
theorem WellFormed.qualify_congr (hw : store.WellFormed) (ht : store.unqualified type = .ok plain)
    (hv : store.unqualified variant = .ok plain) (qual : Qual PathId) :
    Build.qualify type qual store = Build.qualify variant qual store := by
  unfold Build.qualify
  rw [Build.run_query_bind, Build.run_query_bind, hw.shape_eq ht hv]

/-- A variant that is there is given, and nothing is added. -/
theorem WellFormed.qualify_eq_self (hw : store.WellFormed)
    (ht : store.unqualified type = .ok plain) (hv : store.unqualified variant = .ok plain)
    (hq : store.qual variant = .ok own) : Build.qualify type own store = .ok variant store := by
  rw [hw.qualify_congr ht hv]
  obtain ⟨node, hn, rfl⟩ := qual_eq_ok.mp hq
  exact Build.run_qualify_of_node? hn hn

/-- From now on, `type` is the variant of `plain` with the qualifiers `own`, and it is what is
given, without anything being added, when any variant of `plain` is asked for these qualifiers. -/
def KeepsVariant (store : Store) (plain type : TypeId) (own : Qual PathId) : Prop :=
  ∀ later, store.Runs later → later.qual type = .ok own ∧ later.unqualified type = .ok plain ∧
    ∀ variant, later.unqualified variant = .ok plain →
      Build.qualify variant own later = .ok type later

theorem WellFormed.keepsVariant (hw : store.WellFormed) (hu : store.unqualified type = .ok plain)
    (hq : store.qual type = .ok own) : store.KeepsVariant plain type own := by
  intro later hruns
  obtain ⟨hext, hlater⟩ := hruns.onward hw
  have hu' := hext.unqualified hw hu
  have hq' := hext.qual hq
  exact ⟨hq', hu', fun variant hv => hlater.qualify_eq_self hv hu' hq'⟩

/-- Of every type there is a variant with any qualifiers. -/
theorem WellFormed.exists_qualify (hw : store.WellFormed) (ht : store.unqualified type = .ok plain)
    (qual : Qual PathId) : ∃ variant new, Build.qualify type qual store = .ok variant new ∧
      store.Grows new ∧ new.unqualified variant = .ok plain ∧ new.qual variant = .ok qual := by
  obtain ⟨shape, own, hn, hp⟩ := hw.unqualified_eq_ok.mp ht
  have hrun : Build.qualify type qual store = .ok (store.idOf ⟨shape, qual⟩)
      (store.withNode ⟨shape, qual⟩) := Build.run_qualify_eq_ok.mpr ⟨_, hn, rfl, rfl⟩
  have hgrows := (Build.keeps_qualify type qual).of_ok hrun hw
  have hvariant := store.node?_withNode ⟨shape, qual⟩
  exact ⟨_, _, hrun, hgrows,
    hgrows.wellFormed.unqualified_eq_ok.mpr ⟨shape, qual, hvariant, hgrows.extends_.node? hp⟩,
    qual_eq_ok.mpr ⟨_, hvariant, rfl⟩⟩

theorem run_addQual (hq : store.qual type = .ok own) (qual : Qual PathId) :
    Build.addQual type qual store = Build.qualify type (own.union qual) store := by
  unfold Build.addQual
  rw [Build.run_query_bind, hq]
  rfl

/-- Further qualifiers give the variant with those of the type and the new ones together. -/
theorem WellFormed.exists_addQual (hw : store.WellFormed) (ht : store.unqualified type = .ok plain)
    (hq : store.qual type = .ok own) (qual : Qual PathId) :
    ∃ variant new, Build.addQual type qual store = .ok variant new ∧ store.Grows new ∧
      new.unqualified variant = .ok plain ∧ new.qual variant = .ok (own.union qual) ∧
      new.KeepsVariant plain variant (own.union qual) := by
  obtain ⟨variant, new, hrun, hgrows, hu, hjoined⟩ := hw.exists_qualify ht (own.union qual)
  exact ⟨variant, new, (run_addQual hq qual).trans hrun, hgrows, hu, hjoined,
    hgrows.wellFormed.keepsVariant hu hjoined⟩

/-! ### All variants of a type -/

/-- All types with the unqualified type `plain`, which comes first, and the others after it in the
order in which they were entered. No two have the same qualifiers. -/
structure VariantsOf (store : Store) (plain : TypeId) (types : List TypeId) : Prop where
  first : types.head? = some plain
  mem : ∀ type, type ∈ types ↔ store.unqualified type = .ok plain
  older : types.Pairwise fun a b => a.index < b.index
  apart : types.Pairwise fun a b => store.qual a ≠ store.qual b

theorem qualifies_eq_true {shape : Shape TypeId ParamSetId PathId} :
    store.qualifies shape type = true ↔
      ∃ own, store.node? type = some ⟨shape, own⟩ ∧ own ≠ Qual.none := by
  unfold qualifies
  cases store.node? type with
  | none => simp
  | some node =>
      simp only [Bool.and_eq_true, beq_iff_eq, Bool.not_eq_true', Option.some.injEq]
      constructor
      · rintro ⟨rfl, hq⟩
        exact ⟨node.qual, rfl, by simpa [Qual.isNone] using hq⟩
      · rintro ⟨own, rfl, hq⟩
        exact ⟨rfl, by simpa [Qual.isNone] using hq⟩

theorem mem_types_of_node? {node : Node} (hn : store.node? type = some node) :
    type ∈ store.types :=
  List.mem_map.mpr ⟨type.index, List.mem_range.mpr (lt_size_of_node? hn), rfl⟩

theorem pairwise_types (store : Store) : store.types.Pairwise fun a b => a.index < b.index :=
  List.pairwise_map.mpr List.pairwise_lt_range

theorem Reachable.exists_variants (h : store.Reachable)
    (hu : store.unqualified type = .ok plain) :
    ∃ types, store.variants type = .ok types ∧ store.VariantsOf plain types := by
  have hw := h.wellFormed
  obtain ⟨shape, own, hn, hp⟩ := hw.unqualified_eq_ok.mp hu
  have hmem : ∀ other, other ∈ plain :: store.types.filter (store.qualifies shape) ↔
      store.unqualified other = .ok plain := by
    intro other
    rw [List.mem_cons, List.mem_filter, qualifies_eq_true, hw.unqualified_eq_ok]
    constructor
    · rintro (rfl | ⟨_, own', hn', _⟩)
      · exact ⟨shape, _, hp, hp⟩
      · exact ⟨shape, own', hn', hp⟩
    · rintro ⟨shape', own', hn', hp'⟩
      obtain rfl : shape = shape' := congrArg Node.shape (Option.some.inj (hp.symm.trans hp'))
      by_cases hq : own' = Qual.none
      · subst hq
        exact Or.inl (type_eq_of_node_eq hn' hp)
      · exact Or.inr ⟨mem_types_of_node? hn', own', hn', hq⟩
  have holder : (plain :: store.types.filter (store.qualifies shape)).Pairwise
      fun a b => a.index < b.index := by
    refine List.pairwise_cons.mpr ⟨fun other hm => ?_, store.pairwise_types.filter _⟩
    have hle := h.le_of_unqualified ((hmem other).mp (List.mem_cons_of_mem plain hm))
    refine Nat.lt_of_le_of_ne hle fun heq => ?_
    obtain ⟨own', hn', hq⟩ := qualifies_eq_true.mp (List.mem_filter.mp hm).2
    rw [node?, ← heq] at hn'
    exact hq (congrArg Node.qual (Option.some.inj (hn'.symm.trans hp)))
  refine ⟨_, variants_eq_ok.mpr ⟨_, hn, rfl⟩, ?_⟩
  rw [idOf_of_node? hp]
  refine ⟨rfl, hmem, holder, holder.imp_of_mem fun {a b} ha hb hlt hq => ?_⟩
  obtain rfl := hw.eq_of_qual_eq ((hmem a).mp ha) ((hmem b).mp hb) hq
  exact Nat.lt_irrefl _ hlt

/-- Which variant a type is asked for by has no part in what is given. It is the same type every
time, with the qualifiers that were asked for last. Qualifiers that are added are joined to those
that are there, adding them in two steps is adding them together, and the variants that are listed
are all that there are. -/
theorem Reachable.qualify_alike (h : store.Reachable) {s t plain : TypeId}
    (hs : store.unqualified s = .ok plain) (ht : store.unqualified t = .ok plain)
    (p q : Qual PathId) :
    (∃ type new, Build.qualify s q store = .ok type new ∧ Build.qualify t q store = .ok type new ∧
      new.KeepsVariant plain type q) ∧
    (∃ mid inner type new, Build.qualify s p store = .ok mid inner ∧
      Build.qualify mid q inner = .ok type new ∧ Build.qualify s q inner = .ok type new ∧
      new.KeepsVariant plain type q) ∧
    Build.qualify s Qual.none store = .ok plain store ∧
    (∃ own mid inner type new, store.qual s = .ok own ∧
      Build.addQual s p store = .ok mid inner ∧ inner.KeepsVariant plain mid (own.union p) ∧
      Build.addQual mid q inner = .ok type new ∧
      new.KeepsVariant plain type ((own.union p).union q) ∧
      ∀ later, new.Runs later → Build.addQual s (p.union q) later = .ok type later) ∧
    ∃ types, store.variants s = .ok types ∧ store.VariantsOf plain types := by
  have hw := h.wellFormed
  refine ⟨?_, ?_, ?_, ?_, h.exists_variants hs⟩
  · obtain ⟨type, new, hrun, hgrows, hu, hq⟩ := hw.exists_qualify hs q
    exact ⟨type, new, hrun, (hw.qualify_congr ht hs q).trans hrun,
      hgrows.wellFormed.keepsVariant hu hq⟩
  · obtain ⟨mid, inner, hfirst, hinner, hmid, _⟩ := hw.exists_qualify hs p
    obtain ⟨type, new, hsecond, hnew, hu, hq⟩ := hinner.wellFormed.exists_qualify hmid q
    have hs' := hinner.extends_.unqualified hw hs
    exact ⟨mid, inner, type, new, hfirst, hsecond,
      (hinner.wellFormed.qualify_congr hs' hmid q).trans hsecond,
      hnew.wellFormed.keepsVariant hu hq⟩
  · obtain ⟨hplain, hnone⟩ := hw.unqualified_plain hs
    exact hw.qualify_eq_self hs hplain hnone
  · obtain ⟨node, hn, _⟩ := Store.unqualified_eq_ok.mp hs
    have hown : store.qual s = .ok node.qual := qual_eq_ok.mpr ⟨node, hn, rfl⟩
    obtain ⟨mid, inner, hfirst, hinner, hmid, hqmid, hkept⟩ := hw.exists_addQual hs hown p
    obtain ⟨type, new, hsecond, hnew, _, _, hkeeps⟩ := hinner.wellFormed.exists_addQual hmid hqmid q
    refine ⟨node.qual, mid, inner, type, new, hown, hfirst, hkept, hsecond, hkeeps,
      fun later hruns => ?_⟩
    have hext : store.Extends later :=
      (hinner.extends_.trans hnew.extends_).trans (hruns.onward hnew.wellFormed).1
    obtain ⟨_, _, hgiven⟩ := hkeeps later hruns
    rw [run_addQual (hext.qual hown), ← Qual.union_assoc]
    exact hgiven s (hext.unqualified hw hs)

/-- The struct `foo` is made volatile by way of its constant variant, which was there. To that
variant, being volatile and a space are added. -/
theorem Reachable.qualify_alike_struct :
    let foo : TypeId := ⟨Builtin.all.length⟩
    let const : TypeId := ⟨Builtin.all.length + 1⟩
    let volatile : TypeId := ⟨Builtin.all.length + 2⟩
    let far : TypeId := ⟨Builtin.all.length + 3⟩
    let qual : Qual PathId := { Qual.none with isVolatile := true }
    let space : Qual PathId := ⟨.ofStorage .far, false, false, false, false⟩
    let store := (Store.new .wide).afterAll
      [.path ["foo"], .enter (.classType ⟨1⟩ true), .qualify foo Qual.const]
    store.Reachable ∧ store.unqualified const = .ok foo ∧ store.unqualified foo = .ok foo ∧
      store.VariantsOf foo [foo, const] ∧
      (∃ new, Build.qualify const qual store = .ok volatile new ∧
        Build.qualify foo qual store = .ok volatile new ∧ new.KeepsVariant foo volatile qual) ∧
      ∃ inner new, Build.addQual const qual store = .ok volatile inner ∧
        inner.KeepsVariant foo volatile { Qual.const with isVolatile := true } ∧
        Build.addQual volatile space inner = .ok far new ∧
        new.KeepsVariant foo far ⟨.ofStorage .far, false, true, false, true⟩ ∧
        Build.addQual const (qual.union space) new = .ok far new := by
  intro foo const volatile far qual space store
  have h : store.Reachable := (reachable_new .wide).afterAll (by
    simp [Request.Countable, TypeRequest.Countable])
  have hconst : store.unqualified const = .ok foo := by decide +kernel
  have hfoo : store.unqualified foo = .ok foo := by decide +kernel
  have hlist : store.variants const = .ok [foo, const] := by decide +kernel
  have hrun : outcome (Build.qualify const qual) store = .ok volatile := by decide +kernel
  have hadd : outcome (Build.addQual const qual) store = .ok volatile := by decide +kernel
  have hboth : outcome (Build.addQual volatile space) (after (Build.addQual const qual) store) =
      .ok far := by decide +kernel
  have hown : store.qual const = .ok Qual.const := by decide +kernel
  obtain ⟨⟨type, new, hs, ht, hkeeps⟩, _, _, _, types, htypes, hall⟩ :=
    h.qualify_alike hconst hfoo qual qual
  obtain ⟨_, _, _, ⟨own, mid, inner, last, newest, hq, hfirst, hmid, hsecond, hlast, hlater⟩, _⟩ :=
    h.qualify_alike hconst hfoo qual space
  rw [hlist] at htypes
  obtain rfl := Except.ok.inj htypes
  rw [outcome, hs] at hrun
  obtain rfl := Except.ok.inj hrun
  obtain rfl := Except.ok.inj (hown.symm.trans hq)
  rw [after_of_ok hfirst] at hboth
  rw [outcome, hfirst] at hadd
  obtain rfl := Except.ok.inj hadd
  rw [outcome, hsecond] at hboth
  obtain rfl := Except.ok.inj hboth
  exact ⟨h, hconst, hfoo, hall, ⟨new, hs, ht, hkeeps⟩, inner, newest, hfirst, hmid, hsecond, hlast,
    hlater newest .refl⟩

end Store

end TypeGraph

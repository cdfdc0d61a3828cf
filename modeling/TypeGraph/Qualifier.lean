import TypeGraph.Tagged
import TypeGraph.Id

/-!
Qualifiers: address spaces and the four flags. Main statements: joined qualifiers have the flags of
both, and the space of the second unless that is generic (`Qual.joins_iff`), joining is associative
(`Qual.union_assoc`), and joining with none changes nothing.
-/

namespace TypeGraph

/-- Storage category of an address space. -/
inductive Storage where
  /-- No restriction. -/
  | gen
  /-- Automatic storage, not yet allocated. -/
  | aut
  /-- Copy of an object that lives elsewhere. -/
  | cpy
  /-- Static storage, not yet allocated. -/
  | sta
  | loc
  | far
  | near
  | modReg
  | hubReg
  | gblReg
  | modArs
  | hubArs
  | gblArs
  | strArs
  /-- Variadic arguments. -/
  | vaa
  | modArr
  | hubArr
  | gblArr
  | strArr
deriving DecidableEq, Repr

namespace Storage

/-- Every category, in order. -/
def all : List Storage :=
  [.gen, .aut, .cpy, .sta, .loc, .far, .near, .modReg, .hubReg, .gblReg, .modArs, .hubArs,
    .gblArs, .strArs, .vaa, .modArr, .hubArr, .gblArr, .strArr]

/-- Categories that stand in until storage is allocated, and must never be written out. -/
def isPlaceholder : Storage → Bool
  | .aut | .cpy | .sta => true
  | _ => false

/-- Categories that name a declared array. -/
def isDeclarable : Storage → Bool
  | .modArr | .hubArr | .gblArr | .strArr => true
  | _ => false

/-- Short name for signatures and archives. -/
def tag : Storage → String
  | .gen => "gen"
  | .aut => "aut"
  | .cpy => "cpy"
  | .sta => "sta"
  | .loc => "loc"
  | .far => "far"
  | .near => "near"
  | .modReg => "modreg"
  | .hubReg => "hubreg"
  | .gblReg => "gblreg"
  | .modArs => "modars"
  | .hubArs => "hubars"
  | .gblArs => "gblars"
  | .strArs => "strars"
  | .vaa => "vaa"
  | .modArr => "modarr"
  | .hubArr => "hubarr"
  | .gblArr => "gblarr"
  | .strArr => "strarr"

/-- Name for messages. -/
def name : Storage → String
  | .gen => "Gen"
  | .aut => "Aut"
  | .cpy => "Cpy"
  | .sta => "Sta"
  | .loc => "Loc"
  | .far => "Far"
  | .near => "Near"
  | .modReg => "ModReg"
  | .hubReg => "HubReg"
  | .gblReg => "GblReg"
  | .modArs => "ModArs"
  | .hubArs => "HubArs"
  | .gblArs => "GblArs"
  | .strArs => "StrArs"
  | .vaa => "Vaa"
  | .modArr => "ModArr"
  | .hubArr => "HubArr"
  | .gblArr => "GblArr"
  | .strArr => "StrArr"

theorem mem_all (storage : Storage) : storage ∈ all := by cases storage <;> decide

instance : Tagged Storage where
  all := all
  tag := tag
  mem_all := mem_all
  nodup_tags := by decide +kernel

end Storage

/-- An address space: a storage category and, where that is declarable, the array it names. -/
structure Space (ν : Type) where
  storage : Storage
  name : Option ν
deriving DecidableEq, Repr

namespace Space

variable {ν ν' : Type}

/-- The address space without restriction. -/
def generic : Space ν := ⟨.gen, none⟩

/-- The space of a category that names the array `name`. The name is dropped where the category
is not declarable. -/
def declared (storage : Storage) (name : ν) : Space ν :=
  ⟨storage, if storage.isDeclarable then some name else none⟩

/-- The space of a category; a declarable one names the root. -/
def ofStorage (storage : Storage) : Space PathId := declared storage PathId.root

def isGeneric (space : Space ν) : Bool := space.storage == .gen

/-- The same space with its name replaced. -/
def map (f : ν → ν') (space : Space ν) : Space ν' := ⟨space.storage, space.name.map f⟩

/-- A space is named exactly when its category is declarable. -/
def WellNamed (space : Space ν) : Prop := space.name.isSome = space.storage.isDeclarable

end Space

/-- The qualifiers of a type. They are part of its identity. -/
structure Qual (ν : Type) where
  space : Space ν
  isAtomic : Bool
  isConst : Bool
  isRestrict : Bool
  isVolatile : Bool
deriving DecidableEq, Repr

namespace Qual

variable {ν ν' : Type}

/-- No qualifiers at all. -/
def none : Qual ν := ⟨Space.generic, false, false, false, false⟩

/-- The flag `const` alone. -/
def const : Qual ν := { none with isConst := true }

def isNone [DecidableEq ν] (qual : Qual ν) : Bool := qual == none

/-- Both sets of qualifiers together. A space of the second that is not generic wins. -/
def union (a b : Qual ν) : Qual ν where
  space := if b.space.isGeneric then a.space else b.space
  isAtomic := a.isAtomic || b.isAtomic
  isConst := a.isConst || b.isConst
  isRestrict := a.isRestrict || b.isRestrict
  isVolatile := a.isVolatile || b.isVolatile

/-- Whether every qualifier of `a` is one of `b`. -/
def isSubset [DecidableEq ν] (a b : Qual ν) : Bool :=
  (a.space.isGeneric || a.space == b.space) && (!a.isAtomic || b.isAtomic) &&
    (!a.isConst || b.isConst) && (!a.isRestrict || b.isRestrict) &&
    (!a.isVolatile || b.isVolatile)

/-- The same qualifiers with the name of the space replaced. -/
def map (f : ν → ν') (qual : Qual ν) : Qual ν' :=
  ⟨qual.space.map f, qual.isAtomic, qual.isConst, qual.isRestrict, qual.isVolatile⟩

@[simp] theorem isNone_iff [DecidableEq ν] {qual : Qual ν} : qual.isNone = true ↔ qual = none := by
  simp [isNone]

/-- The qualifiers `joined` are those of `a` and of `b`: a flag is set if it is set in either, and
the space is the one of `b`, unless that is generic. -/
structure Joins (a b joined : Qual ν) : Prop where
  isAtomic : joined.isAtomic = true ↔ a.isAtomic = true ∨ b.isAtomic = true
  isConst : joined.isConst = true ↔ a.isConst = true ∨ b.isConst = true
  isRestrict : joined.isRestrict = true ↔ a.isRestrict = true ∨ b.isRestrict = true
  isVolatile : joined.isVolatile = true ↔ a.isVolatile = true ∨ b.isVolatile = true
  wins : b.space.isGeneric = false → joined.space = b.space
  kept : b.space.isGeneric = true → joined.space = a.space

theorem joins_union (a b : Qual ν) : Joins a b (a.union b) where
  isAtomic := Bool.or_eq_true_iff
  isConst := Bool.or_eq_true_iff
  isRestrict := Bool.or_eq_true_iff
  isVolatile := Bool.or_eq_true_iff
  wins h := if_neg (Bool.eq_false_iff.mp h)
  kept h := if_pos h

/-- Nothing but the union is what two sets of qualifiers are together. -/
theorem joins_iff {a b joined : Qual ν} : Joins a b joined ↔ joined = a.union b := by
  constructor
  · intro h
    have hunion := joins_union a b
    have hspace : joined.space = (a.union b).space := by
      cases hb : b.space.isGeneric with
      | true => rw [h.kept hb, hunion.kept hb]
      | false => rw [h.wins hb, hunion.wins hb]
    have hatomic := Bool.eq_iff_iff.mpr (h.isAtomic.trans hunion.isAtomic.symm)
    have hconst := Bool.eq_iff_iff.mpr (h.isConst.trans hunion.isConst.symm)
    have hrestrict := Bool.eq_iff_iff.mpr (h.isRestrict.trans hunion.isRestrict.symm)
    have hvolatile := Bool.eq_iff_iff.mpr (h.isVolatile.trans hunion.isVolatile.symm)
    cases joined
    cases hspace
    cases hatomic
    cases hconst
    cases hrestrict
    cases hvolatile
    rfl
  · rintro rfl
    exact joins_union a b

section Subset

variable [DecidableEq ν] {a b c : Qual ν}

theorem isSubset_iff : a.isSubset b = true ↔
    (a.space.isGeneric = true ∨ a.space = b.space) ∧ (a.isAtomic = true → b.isAtomic = true) ∧
      (a.isConst = true → b.isConst = true) ∧ (a.isRestrict = true → b.isRestrict = true) ∧
      (a.isVolatile = true → b.isVolatile = true) := by
  simp only [isSubset, Bool.and_eq_true, Bool.or_eq_true, beq_iff_eq, Bool.not_eq_true',
    Bool.eq_false_iff, ne_eq, Decidable.imp_iff_not_or, and_assoc]

theorem isSubset_union_right (a b : Qual ν) : b.isSubset (a.union b) = true := by
  have h := joins_union a b
  refine isSubset_iff.mpr ⟨?_, fun hb => h.isAtomic.mpr (Or.inr hb),
    fun hb => h.isConst.mpr (Or.inr hb), fun hb => h.isRestrict.mpr (Or.inr hb),
    fun hb => h.isVolatile.mpr (Or.inr hb)⟩
  cases hb : b.space.isGeneric with
  | true => exact Or.inl rfl
  | false => exact Or.inr (h.wins hb).symm

/-- All that is lost in a union is a space of the first that the second replaces. -/
theorem isSubset_union_left_iff : a.isSubset (a.union b) = true ↔
    a.space.isGeneric = true ∨ b.space.isGeneric = true ∨ a.space = b.space := by
  have h := joins_union a b
  rw [isSubset_iff, and_iff_left ⟨fun ha => h.isAtomic.mpr (Or.inl ha),
    fun ha => h.isConst.mpr (Or.inl ha), fun ha => h.isRestrict.mpr (Or.inl ha),
    fun ha => h.isVolatile.mpr (Or.inl ha)⟩]
  cases hb : b.space.isGeneric with
  | true => simp [h.kept hb]
  | false => simp [h.wins hb]

/-- What has the qualifiers of both has those of the union. -/
theorem union_isSubset (ha : a.isSubset c = true) (hb : b.isSubset c = true) :
    (a.union b).isSubset c = true := by
  have h := joins_union a b
  rw [isSubset_iff] at ha hb ⊢
  obtain ⟨haspace, haatomic, haconst, harestrict, havolatile⟩ := ha
  obtain ⟨hbspace, hbatomic, hbconst, hbrestrict, hbvolatile⟩ := hb
  refine ⟨?_, fun hu => (h.isAtomic.mp hu).elim haatomic hbatomic,
    fun hu => (h.isConst.mp hu).elim haconst hbconst,
    fun hu => (h.isRestrict.mp hu).elim harestrict hbrestrict,
    fun hu => (h.isVolatile.mp hu).elim havolatile hbvolatile⟩
  cases hg : b.space.isGeneric with
  | true => rwa [h.kept hg]
  | false => rwa [h.wins hg]

end Subset

theorem union_assoc (a b c : Qual ν) : (a.union b).union c = a.union (b.union c) := by
  cases hb : b.space.isGeneric <;> cases hc : c.space.isGeneric <;>
    simp [union, hb, hc, Bool.or_assoc]

@[simp] theorem union_none (a : Qual ν) : a.union none = a := by
  simp [union, none, Space.generic, Space.isGeneric]

end Qual

end TypeGraph

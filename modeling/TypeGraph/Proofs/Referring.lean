import TypeGraph.Proofs.Dependency
import TypeGraph.Proofs.Porting

/-!
Numbers of types that a store goes by. Main statement: the bases and data members of finished
classes and what enums are stored as are types of the store, and so is whatever a type leads to.
That a type is not known is said of types only that the store never gave out; in writing the tables,
only of the function members of finished classes, which nothing looks at before
(`Store.Reachable.refers`).
-/

namespace TypeGraph

variable {α β : Type}

/-- Any failure but a type that the store never gave out. -/
def Failure.KnowsTypes (failure : Failure) : Prop := ∀ type, failure ≠ .fault (.unknownType type)

theorem Faultless.knowsTypes {answer : Except Failure α} (h : Faultless answer) :
    FailsBy Failure.KnowsTypes answer := by
  rintro failure hfail type rfl
  exact h _ hfail

theorem Faultless.filterM {f : α → Except Failure Bool} (h : ∀ a, Faultless (f a)) (as : List α) :
    Faultless (as.filterM f) := by
  have hfrom : ∀ kept : List α, Faultless (as.filterAuxM f kept) := by
    induction as with
    | nil => exact fun kept => .pure kept
    | cons a as ih => exact fun kept => (h a).bind fun holds _ => ih _
  exact (hfrom []).bind fun kept _ => .pure _

/-! ### What a question fails for -/

/-- Why there is no answer, if there is none. -/
def failureOf? : Except Failure α → Option Failure
  | .ok _ => none
  | .error failure => some failure

theorem failureOf?_eq_some {answer : Except Failure α} {failure : Failure} :
    failureOf? answer = some failure ↔ answer = .error failure := by
  cases answer <;> simp [failureOf?]

theorem FailsBy.told {P : Failure → Prop} {answer : Except Failure α} (h : FailsBy P answer)
    {failure : Failure} (hf : failureOf? answer = some failure) : P failure :=
  h failure (failureOf?_eq_some.mp hf)

namespace Question

/-- The type that a question is about. -/
def type? : Question → Option TypeId
  | .target | .text _ | .lookup _ | .segments _ | .strings _ | .parent _ | .last _ | .types
  | .paramSet _ | .openAggregates | .saveTables => none
  | .shape type | .qual type | .unqualified type | .variants type | .baseType type
  | .arrayRank type | .arrayElement type | .tupleParts type | .classBody type | .enumBody type
  | .dataMember type _ | .functionMember type _ | .enumValue type _ | .openClass type
  | .openEnum type | .align type | .size type | .sizePoints type | .sizeWords type
  | .sizeBits type | .deferredSize type | .deferredPoints type | .deferredWords type
  | .fixedBits type | .integerRank type | .has type _ | .classify type | .display type
  | .signature type | .save type => some type

/-- Why a question was not answered, or not in full. -/
def failure? : (question : Question) → question.Answer → Option Failure
  | .target, _ | .lookup _, _ | .types, _ | .openAggregates, _ => none
  | .text _, answer | .segments _, answer | .strings _, answer | .parent _, answer
  | .last _, answer | .shape _, answer | .qual _, answer | .unqualified _, answer
  | .variants _, answer | .paramSet _, answer | .baseType _, answer | .arrayRank _, answer
  | .arrayElement _, answer | .tupleParts _, answer | .classBody _, answer
  | .enumBody _, answer | .dataMember _ _, answer | .functionMember _ _, answer
  | .enumValue _ _, answer | .openClass _, answer | .openEnum _, answer | .align _, answer
  | .size _, answer | .sizePoints _, answer | .sizeWords _, answer | .sizeBits _, answer
  | .deferredSize _, answer | .deferredPoints _, answer | .deferredWords _, answer
  | .fixedBits _, answer | .integerRank _, answer | .has _ _, answer | .classify _, answer
  | .display _, answer | .signature _, answer => failureOf? answer
  | .save _, output | .saveTables, output => Output.stop output

end Question

theorem FailsBy.orFail {P : Failure → Prop} {failure : Failure} (h : P failure) (value : Option α) :
    FailsBy P (orFail failure value) := by
  intro own hfail
  obtain ⟨_, rfl⟩ := orFail_eq_error.mp hfail
  exact h

theorem FailsBy.mapM {P : Failure → Prop} {f : α → Except Failure β} (h : ∀ a, FailsBy P (f a))
    (as : List α) : FailsBy P (as.mapM f) := by
  induction as with
  | nil => exact .pure []
  | cons a as ih =>
      rw [List.mapM_cons]
      exact (h a).bind fun _ => ih.bind fun _ => .pure _

namespace Output

variable {P : Failure → Prop}

theorem stopsBy_text {name : Except Failure String} (h : FailsBy P name) :
    (text name).StopsBy P := by
  cases name with
  | ok written => exact .of_none rfl
  | error own =>
      rintro failure ⟨⟩
      exact h own rfl

theorem stopsBy_concat {outputs : List Output} (h : ∀ output ∈ outputs, output.StopsBy P) :
    (concat outputs).StopsBy P := by
  induction outputs with
  | nil => exact .of_none rfl
  | cons output outputs ih =>
      exact (h output List.mem_cons_self).append
        (ih fun other hm => h other (List.mem_cons_of_mem _ hm))

/-- What was written in full was written in full in each of its parts. -/
theorem stop_of_concat {outputs : List Output} (h : (concat outputs).stop = none) :
    ∀ output ∈ outputs, output.stop = none := by
  induction outputs with
  | nil => exact fun _ hm => absurd hm List.not_mem_nil
  | cons output outputs ih =>
      obtain ⟨hfirst, hrest⟩ := stop_append.mp h
      exact List.forall_mem_cons.mpr ⟨hfirst, ih hrest⟩

end Output

namespace Names

variable (names : Names)

theorem knowsTypes_text (keyword : Keyword) : FailsBy Failure.KnowsTypes (names.text keyword) :=
  .orFail (fun _ => nofun) _

theorem knowsTypes_segments (path : PathId) : FailsBy Failure.KnowsTypes (names.segments path) :=
  .orFail (fun _ => nofun) _

theorem knowsTypes_strings (path : PathId) : FailsBy Failure.KnowsTypes (names.strings path) :=
  (names.knowsTypes_segments path).bind fun _ => .mapM names.knowsTypes_text _

end Names

namespace Store

variable {store : Store} {type : TypeId}

/-! ### Types that the store holds -/

theorem Holds.baseType (h : store.Holds type) : Faultless (store.baseType type) := by
  refine h.shape.bind fun shape _ => ?_
  cases shape.base? with
  | some base => exact .pure _
  | none =>
      cases shape with
      | builtin builtin => exact .orFail _ _
      | enumType name => exact h.enumBody.bind fun _ _ => .pure _
      | _ => exact .throw _

/-- The parameter list of a function or tuple is one of the store. -/
theorem WellFormed.faultless_params (hw : store.WellFormed)
    {shape : Shape TypeId ParamSetId PathId} (hs : store.shape type = .ok shape) {set : ParamSetId}
    (hp : shape.params? = some set) : Faultless (store.paramSet set) := by
  obtain ⟨node, hn, rfl⟩ := shape_eq_ok.mp hs
  obtain ⟨params, hparams, _⟩ := (hw.fits hn).params set hp
  exact .of_ok hparams

theorem WellFormed.faultless_isVariadic (hw : store.WellFormed) (h : store.Holds type) :
    Faultless (store.isVariadic type) := by
  refine h.shape.bind fun shape hs => ?_
  cases hp : shape.params? with
  | some set => exact (hw.faultless_params hs hp).bind fun _ _ => .pure _
  | none => exact .pure _

theorem WellFormed.faultless_tupleParts (hw : store.WellFormed) (h : store.Holds type) :
    Faultless (store.tupleParts type) := by
  refine h.shape.bind fun shape hs => ?_
  cases hp : shape.parts? with
  | some set =>
      have hset : shape.params? = some set := by
        cases shape <;> simp_all [Shape.parts?, Shape.params?]
      exact (hw.faultless_params hs hset).bind fun _ _ => .pure _
  | none => exact .pure _

theorem Sound.faultless_sizeBits (hs : store.Sound) (h : store.Holds type) :
    Faultless (store.sizeBits type) := by
  refine h.shape.bind fun shape _ => ?_
  cases shape.bits? with
  | some bits => exact .pure _
  | none => exact (hs.faultless_size h).bind fun _ _ => .orFail _ _

theorem Sound.faultless_deferredPoints (hs : store.Sound) (h : store.Holds type) :
    Faultless (store.deferredPoints type) := by
  refine (hs.faultless_deferredSize h).bind fun bytes _ => ?_
  cases bytes.const? <;> exact .pure _

/-- A size that is not a number of words fails for the division. -/
theorem Sound.knowsTypes_deferredWords (hs : store.Sound) (h : store.Holds type) :
    FailsBy Failure.KnowsTypes (store.deferredWords type) := by
  refine (hs.faultless_deferredSize h).knowsTypes.bind fun bytes => ?_
  rintro failure hfail type rfl
  cases hd : bytes.divide store.target.wordBytes <;> simp [hd, Except.mapError] at hfail

section Traits

variable (hr : store.Reachable) (h : store.Holds type)

include hr h

theorem Reachable.faultless_builtinBehind? : Faultless (store.builtinBehind? type) := by
  obtain ⟨found, hf⟩ := (hr.concludes h).builtinBehind?
  exact .of_ok hf

theorem Reachable.faultless_hasKindTrait (trait : KindTrait) :
    Faultless (store.hasKindTrait type trait) := by
  obtain ⟨unit, node, hu, hn, _⟩ := (hr.concludes h).withoutBitfield
  refine Faultless.bind (Faultless.bind (.of_ok hu) fun part hp => ?_) fun _ _ => .pure _
  cases hu.symm.trans hp
  exact Holds.kind ⟨node, hn⟩

theorem Reachable.faultless_hasBuiltinTrait (trait : BuiltinTrait) :
    Faultless (store.hasBuiltinTrait type trait) :=
  (hr.faultless_builtinBehind? h).bind fun _ _ => .pure _

theorem Reachable.faultless_isReal : Faultless (store.isReal type) :=
  (hr.faultless_hasKindTrait h .arithmetic).bind fun _ _ =>
    (hr.faultless_hasBuiltinTrait h .complex).bind fun _ _ =>
      (hr.faultless_hasBuiltinTrait h .imaginary).bind fun _ _ => .pure _

theorem Reachable.faultless_sizePasses (test : Count → Bool) :
    Faultless (store.sizePasses type test) := by
  have hsize := hr.sound.faultless_size h
  unfold sizePasses
  cases hs : store.size type with
  | ok size => exact .pure _
  | error failure =>
      cases failure with
      | fault fault => exact absurd hs (hsize fault)
      | _ => exact .pure _

theorem Reachable.faultless_has (trait : Trait) : Faultless (store.has type trait) := by
  have hkind := hr.faultless_hasKindTrait h
  cases trait with
  | ofKind trait => exact hkind trait
  | ofBuiltin trait => exact hr.faultless_hasBuiltinTrait h trait
  | bitfield => exact h.kind.bind fun _ _ => .pure _
  | real => exact hr.faultless_isReal h
  | realFloat =>
      exact (hkind .float).bind fun _ _ => (hr.faultless_isReal h).bind fun _ _ => .pure _
  | scopedEnum =>
      refine (hkind .enum).bind fun isEnum _ => ?_
      cases isEnum with
      | true => cases store.enumBody type <;> exact .pure _
      | false => exact .pure _
  | complete =>
      obtain ⟨complete, hc, _⟩ := (hr.concludes h).isComplete
      exact .of_ok hc
  | fixedArray =>
      refine h.shape.bind fun shape _ => ?_
      split <;> exact .pure _
  | variablyModified =>
      obtain ⟨modified, hm⟩ := (hr.concludes h).isVariablyModified
      exact .of_ok hm
  | sized => exact hr.faultless_sizePasses h _
  | variadic => exact hr.wellFormed.faultless_isVariadic h
  | farPointer =>
      refine h.shape.bind fun shape hs => ?_
      obtain ⟨node, hn, rfl⟩ := shape_eq_ok.mp hs
      split
      next base heq =>
        have hbase : store.Holds base :=
          node?_of_lt ((hr.wellFormed.fits hn).base base (by rw [heq]; rfl))
        exact hbase.qual.bind fun _ _ => .pure _
      next => exact .pure _
  | subWord =>
      refine (hkind .scalar).bind fun scalar _ => ?_
      cases scalar with
      | true => exact hr.faultless_sizePasses h _
      | false => exact .pure _
  | incompleteArray | variableArray => exact h.shape.bind fun _ _ => .pure _
  | qualified | const | volatile | restrict | atomic => exact h.qual.bind fun _ _ => .pure _

end Traits

/-- What was noted has no part in the traits of a type. -/
theorem Reachable.outcome_has (hr : store.Reachable) (type : TypeId) (trait : Trait) :
    outcome (Build.has type trait) store = store.has type trait := by
  have hself : (store.noting store.settled).Truthful := hr.truthful
  exact (Build.answers_has store type trait).outcome_eq hself

theorem Reachable.outcome_classify (hr : store.Reachable) (type : TypeId) :
    outcome (Build.classify type) store = Trait.all.filterM (store.has type) := by
  have hself : (store.noting store.settled).Truthful := hr.truthful
  exact (Build.answers_classify store type).outcome_eq hself

/-! ### Texts and records -/

/-- What is written of a type fails for its names and spaces, and never for a type in it. -/
theorem WellFormed.writtenBy (hw : store.WellFormed) {tree : Tree}
    (ht : store.tree type = .ok tree) :
    tree.All (TreeShape.WrittenBy Failure.KnowsTypes) := by
  refine hw.all_of_tree (fun part tree ht => ?_) tree ht
  obtain ⟨node, _, hname, hspace⟩ := hw.names_of_tree ht
  refine ⟨⟨fun name hm => ?_, fun name hm => ?_⟩, ?_⟩
  · obtain ⟨path, _, rfl⟩ := hname name hm
    exact store.names.knowsTypes_strings path
  · obtain ⟨path, _, rfl⟩ := hspace name hm
    exact store.names.knowsTypes_strings path
  · rintro failure ⟨_, rfl⟩ type
    exact nofun

theorem WellFormed.knowsTypes_display (hw : store.WellFormed) (h : store.Holds type) :
    FailsBy Failure.KnowsTypes (store.display type) := by
  obtain ⟨tree, ht⟩ := hw.exists_tree h
  rw [Store.display, ht]
  exact Tree.failsBy_display (hw.writtenBy ht).namedBy

theorem WellFormed.knowsTypes_signature (hw : store.WellFormed) (h : store.Holds type) :
    FailsBy Failure.KnowsTypes (store.signature type) := by
  obtain ⟨tree, ht⟩ := hw.exists_tree h
  rw [Store.signature, ht]
  exact Signature.failsBy_ofTree (hw.writtenBy ht)

theorem WellFormed.knowsTypes_save (hw : store.WellFormed) (h : store.Holds type) :
    (store.save type).StopsBy Failure.KnowsTypes := by
  obtain ⟨tree, ht⟩ := hw.exists_tree h
  rw [Store.save, ht]
  exact Tree.stopsBy_record (hw.writtenBy ht)

/-! ### Questions -/

/-- No question about a type of the store is answered that a type is not known. -/
theorem Reachable.knowsTypes_of_holds (hr : store.Reachable) (h : store.Holds type)
    {question : Question} (hq : question.type? = some type) {failure : Failure}
    (hf : question.failure? (question.answer store) = some failure) : failure.KnowsTypes := by
  have hw := hr.wellFormed
  have hs := hr.sound
  have hconcludes := hr.concludes h
  cases question <;> cases hq
  case shape => exact FailsBy.told h.shape.knowsTypes hf
  case qual => exact FailsBy.told h.qual.knowsTypes hf
  case unqualified => exact FailsBy.told h.unqualified.knowsTypes hf
  case variants => exact FailsBy.told (h.shape.bind fun _ _ => .pure _).knowsTypes hf
  case baseType => exact FailsBy.told h.baseType.knowsTypes hf
  case arrayRank => exact FailsBy.told (.of_ok hconcludes.arrayRank) hf
  case arrayElement =>
      obtain ⟨element, _, he, _⟩ := hconcludes.arrayElement
      exact FailsBy.told (.of_ok ⟨element, he⟩) hf
  case tupleParts => exact FailsBy.told (hw.faultless_tupleParts h).knowsTypes hf
  case classBody => exact FailsBy.told h.classBody.knowsTypes hf
  case enumBody => exact FailsBy.told h.enumBody.knowsTypes hf
  case dataMember | functionMember =>
      exact FailsBy.told (h.classBody.bind fun _ _ => .pure _).knowsTypes hf
  case enumValue => exact FailsBy.told (h.enumBody.bind fun _ _ => .pure _).knowsTypes hf
  case openClass => exact FailsBy.told h.openClass.knowsTypes hf
  case openEnum => exact FailsBy.told h.openEnum.knowsTypes hf
  case align => exact FailsBy.told (hs.faultless_align h).knowsTypes hf
  case size => exact FailsBy.told (hs.faultless_size h).knowsTypes hf
  case sizePoints | sizeWords =>
      exact FailsBy.told ((hs.faultless_size h).bind fun _ _ => .pure _).knowsTypes hf
  case sizeBits => exact FailsBy.told (hs.faultless_sizeBits h).knowsTypes hf
  case deferredSize => exact FailsBy.told (hs.faultless_deferredSize h).knowsTypes hf
  case deferredPoints => exact FailsBy.told (hs.faultless_deferredPoints h).knowsTypes hf
  case deferredWords => exact FailsBy.told (hs.knowsTypes_deferredWords h) hf
  case fixedBits =>
      refine FailsBy.told ((hr.faultless_builtinBehind? h).bind fun found _ => ?_).knowsTypes hf
      split <;> exact .pure _
  case integerRank =>
      exact FailsBy.told ((hr.faultless_builtinBehind? h).bind fun _ _ => .pure _).knowsTypes hf
  case has trait =>
      change failureOf? (outcome (Build.has type trait) store) = some failure at hf
      rw [hr.outcome_has] at hf
      exact FailsBy.told (hr.faultless_has h trait).knowsTypes hf
  case classify =>
      change failureOf? (outcome (Build.classify type) store) = some failure at hf
      rw [hr.outcome_classify] at hf
      exact FailsBy.told (Faultless.filterM (hr.faultless_has h) _).knowsTypes hf
  case display => exact FailsBy.told (hw.knowsTypes_display h) hf
  case signature => exact FailsBy.told (hw.knowsTypes_signature h) hf
  case save => exact hw.knowsTypes_save h failure hf

/-! ### Types that the store does not hold -/

section Unknown

variable (h : ¬store.Holds type)

include h

theorem node_of_not_holds : store.node type = .error (.fault (.unknownType type)) := by
  refine orFail_eq_error.mpr ⟨?_, rfl⟩
  cases hn : store.node? type with
  | none => rfl
  | some node => exact absurd ⟨node, hn⟩ h

theorem shape_of_not_holds : store.shape type = .error (.fault (.unknownType type)) :=
  bind_of_error (node_of_not_holds h) _

theorem qual_of_not_holds : store.qual type = .error (.fault (.unknownType type)) :=
  bind_of_error (node_of_not_holds h) _

theorem kind_of_not_holds : store.kind type = .error (.fault (.unknownType type)) :=
  bind_of_error (shape_of_not_holds h) _

theorem view_of_not_holds : store.view type = .error (.fault (.unknownType type)) :=
  bind_of_error (shape_of_not_holds h) _

theorem classBody_of_not_holds : store.classBody type = .error (.fault (.unknownType type)) :=
  bind_of_error (bind_of_error (kind_of_not_holds h) _) _

theorem enumBody_of_not_holds : store.enumBody type = .error (.fault (.unknownType type)) :=
  bind_of_error (bind_of_error (kind_of_not_holds h) _) _

theorem size_of_not_holds : store.size type = .error (.fault (.unknownType type)) := by
  rw [Store.size]
  exact bind_of_error (view_of_not_holds h) _

theorem deferredSize_of_not_holds :
    store.deferredSize type = .error (.fault (.unknownType type)) := by
  rw [Store.deferredSize]
  exact bind_of_error (view_of_not_holds h) _

theorem withoutBitfield_of_not_holds :
    store.withoutBitfield type = .error (.fault (.unknownType type)) := by
  rw [Store.withoutBitfield]
  exact bind_of_error (view_of_not_holds h) _

theorem builtinBehind?_of_not_holds :
    store.builtinBehind? type = .error (.fault (.unknownType type)) :=
  bind_of_error (withoutBitfield_of_not_holds h) _

theorem hasKindTrait_of_not_holds (trait : KindTrait) :
    store.hasKindTrait type trait = .error (.fault (.unknownType type)) :=
  bind_of_error (bind_of_error (withoutBitfield_of_not_holds h) _) _

theorem tree_of_not_holds : store.tree type = .error (.fault (.unknownType type)) := by
  rw [Store.tree]
  exact bind_of_error (qual_of_not_holds h) _

theorem has_of_not_holds (trait : Trait) :
    store.has type trait = .error (.fault (.unknownType type)) := by
  have hkind := hasKindTrait_of_not_holds h
  cases trait with
  | ofKind trait => exact hkind trait
  | ofBuiltin trait => exact bind_of_error (builtinBehind?_of_not_holds h) _
  | bitfield => exact bind_of_error (kind_of_not_holds h) _
  | real => exact bind_of_error (hkind .arithmetic) _
  | realFloat => exact bind_of_error (hkind .float) _
  | scopedEnum => exact bind_of_error (hkind .enum) _
  | subWord => exact bind_of_error (hkind .scalar) _
  | complete =>
      change store.isComplete type = _
      rw [Store.isComplete]
      exact bind_of_error (view_of_not_holds h) _
  | variablyModified =>
      change store.isVariablyModified type = _
      rw [Store.isVariablyModified]
      exact bind_of_error (view_of_not_holds h) _
  | sized =>
      change store.sizePasses type _ = _
      rw [sizePasses, size_of_not_holds h]
      rfl
  | incompleteArray | fixedArray | variableArray | variadic | farPointer =>
      exact bind_of_error (shape_of_not_holds h) _
  | qualified | const | volatile | restrict | atomic => exact bind_of_error (qual_of_not_holds h) _

/-- Every question about a type that the store never gave out is answered that it is not known. -/
theorem Reachable.failure?_of_not_holds (hr : store.Reachable) {question : Question}
    (hq : question.type? = some type) :
    question.failure? (question.answer store) = some (.fault (.unknownType type)) := by
  cases question <;> cases hq
  case shape => exact failureOf?_eq_some.mpr (shape_of_not_holds h)
  case qual => exact failureOf?_eq_some.mpr (qual_of_not_holds h)
  case classBody => exact failureOf?_eq_some.mpr (classBody_of_not_holds h)
  case enumBody => exact failureOf?_eq_some.mpr (enumBody_of_not_holds h)
  case size => exact failureOf?_eq_some.mpr (size_of_not_holds h)
  case deferredSize => exact failureOf?_eq_some.mpr (deferredSize_of_not_holds h)
  case unqualified | variants | baseType | tupleParts | sizeBits =>
      exact failureOf?_eq_some.mpr (bind_of_error (shape_of_not_holds h) _)
  case dataMember | functionMember =>
      exact failureOf?_eq_some.mpr (bind_of_error (classBody_of_not_holds h) _)
  case enumValue => exact failureOf?_eq_some.mpr (bind_of_error (enumBody_of_not_holds h) _)
  case openClass | openEnum =>
      exact failureOf?_eq_some.mpr (bind_of_error (bind_of_error (kind_of_not_holds h) _) _)
  case sizePoints | sizeWords =>
      exact failureOf?_eq_some.mpr (bind_of_error (size_of_not_holds h) _)
  case deferredPoints | deferredWords =>
      exact failureOf?_eq_some.mpr (bind_of_error (deferredSize_of_not_holds h) _)
  case fixedBits | integerRank =>
      exact failureOf?_eq_some.mpr (bind_of_error (builtinBehind?_of_not_holds h) _)
  case arrayRank =>
      refine failureOf?_eq_some.mpr (show store.arrayRank type = _ from ?_)
      rw [Store.arrayRank]
      exact bind_of_error (view_of_not_holds h) _
  case arrayElement =>
      refine failureOf?_eq_some.mpr (show store.arrayElement type = _ from ?_)
      rw [Store.arrayElement]
      exact bind_of_error (view_of_not_holds h) _
  case align =>
      refine failureOf?_eq_some.mpr (show store.align type = _ from ?_)
      rw [Store.align]
      exact bind_of_error (view_of_not_holds h) _
  case has trait =>
      exact failureOf?_eq_some.mpr ((hr.outcome_has type trait).trans (has_of_not_holds h trait))
  case classify =>
      refine failureOf?_eq_some.mpr ((hr.outcome_classify type).trans ?_)
      exact bind_of_error (bind_of_error (has_of_not_holds h _) _) _
  case display => exact failureOf?_eq_some.mpr (bind_of_error (tree_of_not_holds h) _)
  case signature => exact failureOf?_eq_some.mpr (bind_of_error (tree_of_not_holds h) _)
  case save =>
      change (store.save type).stop = _
      rw [Store.save, tree_of_not_holds h]
      rfl

end Unknown

end Store

/-! ### Finished classes and enums -/

namespace Definition

/-- The types that values of a class are made of, and the type that an enum is stored as. -/
def values : Definition → List TypeId
  | .ofClass body => body.values
  | .ofEnum body => [body.base]

/-- The types of the function members of a class. -/
def functionTypes : Definition → List TypeId
  | .ofClass body => body.functions.map Member.type
  | .ofEnum _ => []

end Definition

namespace Store

variable {store : Store} {type : TypeId} {entry : TypeId × Definition} {failure : Failure}

/-- What is laid out with a class or enum is a type of the store. -/
theorem Reachable.holds_values (h : store.Reachable) (hm : entry ∈ store.definitions) :
    ∀ part ∈ entry.2.values, store.Holds part := by
  obtain ⟨owner, definition⟩ := entry
  cases definition with
  | ofClass body =>
      obtain ⟨_, _, _, _, _, hvalues⟩ := h.ordered.rests hm
      exact fun part hpart => (hvalues part hpart).1
  | ofEnum body =>
      intro part hpart
      obtain rfl := List.mem_singleton.mp hpart
      exact h.sound.based owner body hm

/-- A failure for a type that is not known is for one of these, which the store never gave out. -/
def Strays (store : Store) (types : List TypeId) (failure : Failure) : Prop :=
  ∀ type, failure = .fault (.unknownType type) → ¬store.Holds type ∧ type ∈ types

theorem strays_of_knowsTypes {types : List TypeId} (h : failure.KnowsTypes) :
    store.Strays types failure := fun type heq => absurd heq (h type)

theorem WellFormed.strays_save (hw : store.WellFormed) {types : List TypeId}
    (h : store.Holds type ∨ type ∈ types) : (store.save type).StopsBy (store.Strays types) := by
  by_cases hh : store.Holds type
  · exact (hw.knowsTypes_save hh).mono fun _ => strays_of_knowsTypes
  · rw [Store.save, tree_of_not_holds hh]
    rintro failure ⟨⟩ other ⟨⟩
    exact ⟨hh, h.resolve_left hh⟩

section Bodies

variable {P : Failure → Prop} (hP : ∀ failure, failure.KnowsTypes → P failure)

include hP

theorem stopsBy_saveMember {member : Member Keyword} (h : (store.save member.type).StopsBy P) :
    (store.saveMember member).StopsBy P := by
  have hname := Output.stopsBy_text ((store.names.knowsTypes_text member.name).mono hP)
  exact (((hname.append h).append (.of_none rfl)).append (.of_none rfl)).append (.of_none rfl)

/-- A body is stopped for what a name or the record of a type in it is stopped for. -/
theorem stopsBy_saveBody (howner : (store.save entry.1).StopsBy P)
    (hvalues : ∀ part ∈ entry.2.values, (store.save part).StopsBy P)
    (hfunctions : ∀ part ∈ entry.2.functionTypes, (store.save part).StopsBy P) :
    (store.saveBody entry).StopsBy P := by
  obtain ⟨owner, definition⟩ := entry
  have hopens (tag : String) : (Output.tag tag ++ store.save owner).StopsBy P :=
    .append (.of_none rfl) howner
  cases definition with
  | ofClass body =>
      have hbases : (Output.concat (body.bases.map store.saveBase)).StopsBy P := by
        refine Output.stopsBy_concat (List.forall_mem_map.mpr fun base hm => ?_)
        have hsave := hvalues base.type (List.mem_append_left _ (List.mem_map_of_mem hm))
        exact (hsave.append (.of_none rfl)).append (.of_none rfl)
      have hdata : (Output.concat (body.data.map store.saveMember)).StopsBy P := by
        refine Output.stopsBy_concat (List.forall_mem_map.mpr fun member hm => ?_)
        exact stopsBy_saveMember hP
          (hvalues member.type (List.mem_append_right _ (List.mem_map_of_mem hm)))
      have hfunctions : (Output.concat (body.functions.map store.saveMember)).StopsBy P := by
        refine Output.stopsBy_concat (List.forall_mem_map.mpr fun member hm => ?_)
        exact stopsBy_saveMember hP (hfunctions member.type (List.mem_map_of_mem hm))
      exact ((((((hopens _).append (.of_none rfl)).append hbases).append (.of_none rfl)).append
        hdata).append (.of_none rfl)).append hfunctions
  | ofEnum body =>
      have hbase : (store.save body.base).StopsBy P :=
        hvalues body.base (List.mem_singleton.mpr rfl)
      have hentries : (Output.concat (body.values.map store.saveValue)).StopsBy P := by
        refine Output.stopsBy_concat (List.forall_mem_map.mpr fun value _ => ?_)
        have hname := Output.stopsBy_text ((store.names.knowsTypes_text value.1).mono hP)
        exact hname.append (.of_none rfl)
      exact ((((hopens _).append (.of_none rfl)).append hbase).append
        (.of_none rfl)).append hentries

end Bodies

/-- Only the function members of a class may be of types that are not known. -/
theorem Reachable.strays_saveBody (h : store.Reachable) (hm : entry ∈ store.definitions) :
    (store.saveBody entry).StopsBy (store.Strays entry.2.functionTypes) := by
  have hw := h.wellFormed
  refine stopsBy_saveBody (fun _ => strays_of_knowsTypes) ?_
    (fun part hpart => ?_) fun part hpart => ?_
  · exact hw.strays_save (Or.inl (h.fitting entry hm).holds)
  · exact hw.strays_save (Or.inl (h.holds_values hm part hpart))
  · exact hw.strays_save (Or.inr hpart)

/-- Tables are stopped for a type that is not known only if a function member is of that type. -/
theorem Reachable.strays_saveTables (h : store.Reachable) :
    store.saveTables.StopsBy
      (store.Strays (store.definitions.flatMap fun entry => entry.2.functionTypes)) := by
  refine (((((Output.StopsBy.of_none rfl).append (.of_none rfl)).append ?_).append
    (.of_none rfl)).append (.of_none rfl)).append ?_
  · refine Output.stopsBy_concat (List.forall_mem_map.mpr fun type hm => ?_)
    obtain ⟨i, hi, rfl⟩ := List.mem_map.mp (List.mem_filter.mp hm).1
    exact h.wellFormed.strays_save (Or.inl (node?_of_lt (List.mem_range.mp hi)))
  · refine Output.stopsBy_concat (List.forall_mem_map.mpr fun entry hm => ?_)
    refine (h.strays_saveBody hm).mono fun failure hstray type heq => ?_
    obtain ⟨hnot, hfunction⟩ := hstray type heq
    exact ⟨hnot, List.mem_flatMap.mpr ⟨entry, hm, hfunction⟩⟩

/-- Tables that were written in full are over types of the store only. -/
theorem holds_functionTypes (h : store.saveTables.stop = none) (hm : entry ∈ store.definitions) :
    ∀ part ∈ entry.2.functionTypes, store.Holds part := by
  obtain ⟨_, hbodies⟩ := Output.stop_append.mp h
  have hbody := Output.stop_of_concat hbodies _ (List.mem_map_of_mem hm)
  obtain ⟨owner, definition⟩ := entry
  cases definition with
  | ofEnum body => exact fun _ hpart => absurd hpart List.not_mem_nil
  | ofClass body =>
      intro part hpart
      obtain ⟨member, hmember, rfl⟩ := List.mem_map.mp hpart
      obtain ⟨_, hfunctions⟩ := Output.stop_append.mp hbody
      have hsave := Output.stop_of_concat hfunctions _ (List.mem_map_of_mem hmember)
      simp only [saveMember, Output.stop_append] at hsave
      obtain ⟨⟨⟨⟨_, hsave⟩, _⟩, _⟩, _⟩ := hsave
      by_contra hnot
      rw [Store.save, tree_of_not_holds hnot] at hsave
      cases hsave

/-- Names, paths and parameter lists are all that other questions look for. -/
theorem knowsTypes_of_type?_eq_none {question : Question} (hq : question.type? = none)
    (hne : question ≠ .saveTables) (hf : question.failure? (question.answer store) = some failure) :
    failure.KnowsTypes := by
  have hsegments := store.names.knowsTypes_segments
  cases question <;> cases hq
  case target | lookup | types | openAggregates => cases hf
  case text keyword => exact FailsBy.told (store.names.knowsTypes_text keyword) hf
  case segments path => exact FailsBy.told (hsegments path) hf
  case strings path => exact FailsBy.told (store.names.knowsTypes_strings path) hf
  case parent path | last path => exact FailsBy.told ((hsegments path).bind fun _ => .pure _) hf
  case paramSet set => exact FailsBy.told (.orFail (fun _ => nofun) _) hf
  case saveTables => exact absurd rfl hne

/-- What is laid out with finished classes and enums are types of the store. That a type is not
known is answered exactly if the store never gave out the type that is asked about. In tables it can
only be a function member of a finished class that is of such a type, and if one is, they are not
written. -/
theorem Reachable.refers (h : store.Reachable) :
    (∀ entry ∈ store.definitions,
      store.Holds entry.1 ∧ ∀ part ∈ entry.2.values, store.Holds part) ∧
    (∀ (question : Question) (type : TypeId), question.type? = some type →
      ((∃ other, question.failure? (question.answer store) = some (.fault (.unknownType other))) ↔
        ¬store.Holds type)) ∧
    (∀ (question : Question) (failure : Failure), question.type? = none → question ≠ .saveTables →
      question.failure? (question.answer store) = some failure → failure.KnowsTypes) ∧
    store.saveTables.StopsBy
      (store.Strays (store.definitions.flatMap fun entry => entry.2.functionTypes)) ∧
    (store.saveTables.stop = none →
      ∀ entry ∈ store.definitions, ∀ part ∈ entry.2.functionTypes, store.Holds part) := by
  refine ⟨?_, ?_, ?_, h.strays_saveTables, ?_⟩
  · exact fun entry hm => ⟨(h.fitting entry hm).holds, h.holds_values hm⟩
  · intro question type hq
    constructor
    · rintro ⟨other, hf⟩ hh
      exact h.knowsTypes_of_holds hh hq hf other rfl
    · exact fun hnot => ⟨type, failure?_of_not_holds hnot h hq⟩
  · exact fun question failure hq hne hf => knowsTypes_of_type?_eq_none hq hne hf
  · exact fun hstop entry hm => holds_functionTypes hstop hm

/-- A struct with a base, a data member and a function of a type that was never given out. -/
theorem Reachable.refers_struct :
    let foo : TypeId := ⟨Builtin.all.length⟩
    let bar : TypeId := ⟨Builtin.all.length + 1⟩
    let bool : TypeId := .builtin (.bool .hard)
    let draft : ClassDraft := ⟨bar, [⟨foo, .isPublic, false⟩], [⟨"a", bool, 4, .isPublic, false⟩],
      [⟨"f", ⟨1000⟩, 0, .isPublic, false⟩]⟩
    let store := (Store.new .wide).afterAll [.path ["foo"], .enter (.classType ⟨1⟩ true),
      .completeClass (.new foo), .path ["bar"], .enter (.classType ⟨2⟩ true), .completeClass draft]
    store.Reachable ∧ (∃ body, store.classBody? bar = some body ∧ body.values = [foo, bool] ∧
      ∀ part ∈ body.values, store.Holds part) ∧
      ¬store.Holds ⟨1000⟩ ∧ store.saveTables.stop ≠ none ∧
      ∃ other, failureOf? (store.display ⟨1000⟩) = some (.fault (.unknownType other)) := by
  intro foo bar bool draft store
  have h : store.Reachable := (reachable_new .wide).afterAll (by
    simp [Request.Countable, TypeRequest.Countable])
  obtain ⟨hvalues, hquestions, _, _, htables⟩ := h.refers
  have hnot : ¬store.Holds ⟨1000⟩ := by
    rintro ⟨node, hn⟩
    have hnone : store.node? ⟨1000⟩ = none := by decide +kernel
    cases hnone.symm.trans hn
  obtain ⟨body, hbody⟩ : ∃ body, store.classBody? bar = some body :=
    Option.isSome_iff_exists.mp (by decide +kernel)
  have hentry : (bar, Definition.ofClass body) ∈ store.definitions :=
    mem_of_definition? (classBody?_eq_some.mp hbody)
  have hparts : (store.classBody? bar).map (fun body =>
      (body.values, body.functions.map Member.type)) = some ([foo, bool], [⟨1000⟩]) := by
    decide +kernel
  rw [hbody, Option.map_some, Option.some.injEq, Prod.mk.injEq] at hparts
  obtain ⟨hlist, hfunctions⟩ := hparts
  refine ⟨h, ⟨body, hbody, hlist, (hvalues _ hentry).2⟩, hnot, fun hstop => ?_, ?_⟩
  · refine hnot (htables hstop _ hentry ⟨1000⟩ ?_)
    change (⟨1000⟩ : TypeId) ∈ body.functions.map Member.type
    rw [hfunctions]
    exact List.mem_singleton.mpr rfl
  · exact (hquestions (.display ⟨1000⟩) ⟨1000⟩ rfl).mpr hnot

/-- A struct is completed with a function of a type that was never given out, and its tables are not
written for that. -/
theorem exists_unknown_function :
    let foo : TypeId := ⟨Builtin.all.length⟩
    let draft : ClassDraft := ⟨foo, [], [], [⟨"f", ⟨1000⟩, 0, .isPublic, false⟩]⟩
    let before := (Store.new .wide).afterAll [.path ["foo"], .enter (.classType ⟨1⟩ true)]
    let store := (Request.completeClass draft).effect before
    before.Reachable ∧ outcome (Build.completeClass draft) before = .ok foo ∧
      (store.classBody? foo).map (fun body => body.functions.map Member.type) = some [⟨1000⟩] ∧
      store.node? ⟨1000⟩ = none ∧
      store.saveTables.stop = some (.fault (.unknownType ⟨1000⟩)) := by
  intro foo draft before store
  have h : before.Reachable := (reachable_new .wide).afterAll (by
    simp [Request.Countable, TypeRequest.Countable])
  exact ⟨h, by decide +kernel, by decide +kernel, by decide +kernel, by decide +kernel⟩

end Store

end TypeGraph

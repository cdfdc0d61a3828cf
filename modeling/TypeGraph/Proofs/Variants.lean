import TypeGraph.Proofs.Folding
import TypeGraph.Proofs.Qualifying
import TypeGraph.Proofs.Referring

/-!
Qualifiers have no part in how a type is laid out. Main statement: whatever is asked of the store
once a variant was made, completions by way of any variant included, the variant and the type
without qualifiers have the same sizes, alignment, completeness, base type and body, or are refused
them for the same reason (`Store.Reachable.qualified_as_plain`).
-/

namespace TypeGraph

variable {α β τ τ' : Type}

/-! ### Answers that differ at most in the type that is refused -/

/-- The same refusal, of another type. -/
def TypeError.about (type : TypeId) : TypeError → TypeError
  | .incomplete _ => .incomplete type
  | .noSize _ => .noSize type
  | .variableSize _ => .variableSize type
  | .noBaseType _ => .noBaseType type
  | .alreadyComplete _ => .alreadyComplete type
  | .duplicateEnumValue _ name => .duplicateEnumValue type name
  | .internalSpace storage => .internalSpace storage
  | .notClass _ => .notClass type
  | .notEnum _ => .notEnum type
  | .invalidEnumBase _ base => .invalidEnumBase type base
  | .variadicTuple => .variadicTuple
  | .sizeOverflow _ => .sizeOverflow type

/-- The same failure, which if it is a refusal is one of another type. -/
def Failure.about (type : TypeId) : Failure → Failure
  | .type error => .type (error.about type)
  | failure => failure

/-- Two answers with the same value, or two failures for the same reason: said of any one type, they
are the same. -/
def Concur (x y : Except Failure α) : Prop :=
  ∀ type, x.mapError (·.about type) = y.mapError (·.about type)

namespace Concur

variable {x y : Except Failure α}

theorem refl (x : Except Failure α) : Concur x x := fun _ => rfl

theorem of_eq (h : x = y) : Concur x y := h ▸ refl x

theorem refused {error error' : TypeError} (h : ∀ type, error.about type = error'.about type) :
    Concur (.error (.type error) : Except Failure α) (.error (.type error')) := by
  intro type
  simp only [Except.mapError, Failure.about, h type]

theorem orFail {error error' : TypeError} (h : ∀ type, error.about type = error'.about type)
    (value : Option α) : Concur (orFail (.type error) value) (orFail (.type error') value) := by
  cases value with
  | some a => exact refl _
  | none => exact refused h

theorem bind {f g : α → Except Failure β} (hx : Concur x y) (hf : ∀ a, Concur (f a) (g a)) :
    Concur (x >>= f) (y >>= g) := by
  intro type
  have hsame := hx type
  cases x with
  | ok a =>
      cases y with
      | ok b =>
          obtain rfl : a = b := Except.ok.inj hsame
          exact hf a type
      | error failure => cases hsame
  | error failure =>
      cases y with
      | ok b => cases hsame
      | error failure' => exact congrArg Except.error (Except.error.inj hsame)

/-- Blaming the one or the other type for a part. -/
theorem blame (answer : Except Failure α) (whole whole' : TypeId) :
    Concur (answer.mapError (·.blame whole)) (answer.mapError (·.blame whole')) := by
  intro type
  cases answer with
  | ok a => rfl
  | error failure =>
      cases failure with
      | type error => cases error <;> rfl
      | _ => rfl

theorem foldlM {R : τ → τ' → Prop} {f : β → τ → Except Failure β} {g : β → τ' → Except Failure β}
    {as : List τ} {bs : List τ'} (h : List.Forall₂ R as bs)
    (hstep : ∀ acc a b, R a b → Concur (f acc a) (g acc b)) (start : β) :
    Concur (as.foldlM f start) (bs.foldlM g start) := by
  induction h generalizing start with
  | nil => exact refl _
  | cons hab _ ih =>
      rw [List.foldlM_cons, List.foldlM_cons]
      exact (hstep start _ _ hab).bind ih

end Concur

/-- Asking related things one by one comes to the same. -/
theorem allM_congr {R : τ → τ' → Prop} {f : τ → Except Failure Bool} {g : τ' → Except Failure Bool}
    {as : List τ} {bs : List τ'} (h : List.Forall₂ R as bs) (hfg : ∀ a b, R a b → f a = g b) :
    as.allM f = bs.allM g := by
  induction h with
  | nil => rfl
  | cons hab _ ih => rw [List.allM, List.allM, hfg _ _ hab, ih]

theorem anyM_congr {R : τ → τ' → Prop} {f : τ → Except Failure Bool} {g : τ' → Except Failure Bool}
    {as : List τ} {bs : List τ'} (h : List.Forall₂ R as bs) (hfg : ∀ a b, R a b → f a = g b) :
    as.anyM f = bs.anyM g := by
  induction h with
  | nil => rfl
  | cons hab _ ih => rw [List.anyM, List.anyM, hfg _ _ hab, ih]

namespace Store

variable {store : Store} {a b : TypeId} {shape : Shape TypeId ParamSetId PathId}
  {own own' : Qual PathId}

/-! ### Types of one shape -/

/-- The same parts are seen of two types, each part from either of them. -/
abbrev SeenAlike (seen : View a) (seen' : View b) : Prop :=
  Shape.Rel (fun part part' => part.type = part'.type)
    (Params.Rel fun part part' => part.type = part'.type) (· = ·) seen seen'

section OneShape

variable (hw : store.WellFormed) (ha : store.node? a = some ⟨shape, own⟩)
  (hb : store.node? b = some ⟨shape, own'⟩)

include hw ha hb

theorem exists_seenAlike : ∃ seen seen', store.view a = .ok seen ∧ store.view b = .ok seen' ∧
    SeenAlike seen seen' := by
  obtain ⟨seen, hv⟩ := hw.view ha
  obtain ⟨seen', hv'⟩ := hw.view hb
  refine ⟨seen, seen', hv, hv', ?_⟩
  have hboth := Shape.Rel.comp.mpr ⟨shape, (rel_of_view ha hv).flip, rel_of_view hb hv'⟩
  refine hboth.imp ?_ ?_ ?_
  · rintro part part' ⟨_, h, h'⟩
    exact h.trans h'.symm
  · rintro parts parts' ⟨set, ⟨params, hp, hrel⟩, ⟨params', hp', hrel'⟩⟩
    cases hp.symm.trans hp'
    refine (Params.Rel.comp.mpr ⟨params, hrel.flip, hrel'⟩).imp ?_
    rintro part part' ⟨_, h, h'⟩
    exact h.trans h'.symm
  · rintro name name' ⟨_, h, h'⟩
    exact h.symm.trans h'

omit hw in
theorem unqualified_eq_of_shape : store.unqualified a = store.unqualified b := by
  rw [unqualified_eq_ok.mpr ⟨_, ha, rfl⟩, unqualified_eq_ok.mpr ⟨_, hb, rfl⟩]

omit hw in
theorem shape_eq_of_shape : store.shape a = store.shape b := by
  rw [shape_eq_ok.mpr ⟨_, ha, rfl⟩, shape_eq_ok.mpr ⟨_, hb, rfl⟩]

omit hw in
theorem kind_eq_of_shape : store.kind a = store.kind b := by
  rw [Store.kind, Store.kind, shape_eq_of_shape ha hb]

omit hw in
theorem classBody_concur : Concur (store.classBody a) (store.classBody b) := by
  have howner : Concur (store.classOwner a) (store.classOwner b) := by
    rw [Store.classOwner, Store.classOwner, kind_eq_of_shape ha hb, unqualified_eq_of_shape ha hb]
    refine (Concur.refl _).bind fun kind => ?_
    cases kind.isClass with
    | true => exact .refl _
    | false => exact .refused fun _ => by rfl
  exact howner.bind fun _ => .orFail (fun _ => by rfl) _

omit hw in
theorem enumBody_concur : Concur (store.enumBody a) (store.enumBody b) := by
  have howner : Concur (store.enumOwner a) (store.enumOwner b) := by
    rw [Store.enumOwner, Store.enumOwner, kind_eq_of_shape ha hb, unqualified_eq_of_shape ha hb]
    refine (Concur.refl _).bind fun kind => ?_
    by_cases hk : kind = .enum
    · rw [if_pos hk, if_pos hk]
      exact .refl _
    · rw [if_neg hk, if_neg hk]
      exact .refused fun _ => by rfl
  exact howner.bind fun _ => .orFail (fun _ => by rfl) _

omit hw in
theorem enumStorage_concur : Concur (store.enumStorage a) (store.enumStorage b) :=
  (enumBody_concur ha hb).bind fun _ => .refl _

omit hw in
theorem baseType_concur : Concur (store.baseType a) (store.baseType b) := by
  rw [Store.baseType, Store.baseType, shape_eq_of_shape ha hb]
  refine (Concur.refl _).bind fun shape => ?_
  cases shape.base? with
  | some base => exact .refl _
  | none =>
      cases shape with
      | builtin builtin => exact .orFail (fun _ => by rfl) _
      | enumType name => exact (enumBody_concur ha hb).bind fun _ => .refl _
      | _ => exact .refused fun _ => by rfl

theorem align_concur : Concur (store.align a) (store.align b) := by
  obtain ⟨seen, seen', hv, hv', hsame⟩ := exists_seenAlike hw ha hb
  rw [Store.align, Store.align, hv, hv', ok_bind, ok_bind]
  cases hsame with
  | builtin builtin => exact .orFail (fun _ => by rfl) _
  | array extent hbase =>
      dsimp only
      rw [hbase]
      cases extent.isComplete with
      | true => exact .refl _
      | false => exact .refused fun _ => by rfl
  | bitfield bits offset hbase => exact .of_eq (congrArg store.align hbase)
  | pointer hbase | leftRef hbase | rightRef hbase =>
      dsimp only
      rw [hbase]
      exact .refl _
  | memberPointer howner hbase => exact .refl _
  | function | memberFunction => exact .refused fun _ => by rfl
  | tuple hparts =>
      refine .foldlM hparts.types (fun most part part' hpart => ?_) 1
      rw [hpart]
      exact (Concur.blame _ _ _).bind fun _ => .refl _
  | classType isStruct hname => exact (classBody_concur ha hb).bind fun _ => .refl _
  | enumType hname =>
      exact (enumStorage_concur ha hb).bind fun _ => .orFail (fun _ => by rfl) _

theorem size_concur : Concur (store.size a) (store.size b) := by
  obtain ⟨seen, seen', hv, hv', hsame⟩ := exists_seenAlike hw ha hb
  rw [Store.size, Store.size, hv, hv', ok_bind, ok_bind]
  cases hsame with
  | builtin builtin => exact .orFail (fun _ => by rfl) _
  | array extent hbase =>
      dsimp only
      rw [hbase]
      cases extent with
      | fixed count => exact (Concur.refl _).bind fun _ => .orFail (fun _ => by rfl) _
      | _ => exact .refused fun _ => by rfl
  | bitfield bits offset hbase =>
      dsimp only
      rw [hbase]
      refine (Concur.refl _).bind fun unit => ?_
      by_cases hunit : unit = 0
      · rw [if_pos hunit, if_pos hunit]
        exact .refl _
      · rw [if_neg hunit, if_neg hunit]
        exact .orFail (fun _ => by rfl) _
  | pointer hbase | leftRef hbase | rightRef hbase =>
      exact .of_eq (congrArg store.pointerSize hbase)
  | memberPointer howner hbase => exact .refl _
  | function | memberFunction => exact .refused fun _ => by rfl
  | tuple hparts =>
      refine Concur.bind (.foldlM hparts.types (fun total part part' hpart => ?_) 0) fun _ =>
        .orFail (fun _ => by rfl) _
      rw [hpart]
      exact (Concur.blame _ _ _).bind fun _ => .orFail (fun _ => by rfl) _
  | classType isStruct hname => exact (classBody_concur ha hb).bind fun _ => .refl _
  | enumType hname =>
      exact (enumStorage_concur ha hb).bind fun _ => .orFail (fun _ => by rfl) _

theorem sizeBits_concur : Concur (store.sizeBits a) (store.sizeBits b) := by
  rw [Store.sizeBits, Store.sizeBits, shape_eq_of_shape ha hb]
  refine (Concur.refl _).bind fun shape => ?_
  cases shape.bits? with
  | some bits => exact .refl _
  | none => exact (size_concur hw ha hb).bind fun _ => .orFail (fun _ => by rfl) _

theorem deferredSize_concur : Concur (store.deferredSize a) (store.deferredSize b) := by
  have hsize := size_concur hw ha hb
  obtain ⟨seen, seen', hv, hv', hsame⟩ := exists_seenAlike hw ha hb
  rw [Store.deferredSize, Store.deferredSize, hv, hv', ok_bind, ok_bind]
  cases hsame with
  | array extent hbase =>
      dsimp only
      rw [hbase]
      cases extent with
      | incomplete | unspecified => exact .refused fun _ => by rfl
      | _ => exact (Concur.refl _).bind fun _ => .orFail (fun _ => by rfl) _
  | _ => exact hsize.bind fun _ => .refl _

theorem isComplete_eq_of_shape : store.isComplete a = store.isComplete b := by
  obtain ⟨seen, seen', hv, hv', hsame⟩ := exists_seenAlike hw ha hb
  rw [Store.isComplete, Store.isComplete, hv, hv', ok_bind, ok_bind]
  cases hsame with
  | array extent hbase | bitfield bits offset hbase =>
      dsimp only
      rw [hbase]
  | tuple hparts =>
      exact allM_congr hparts.types fun part part' hpart => congrArg store.isComplete hpart
  | classType | enumType =>
      dsimp only
      rw [unqualified_eq_of_shape ha hb]
  | _ => rfl

theorem isVariablyModified_eq_of_shape :
    store.isVariablyModified a = store.isVariablyModified b := by
  obtain ⟨seen, seen', hv, hv', hsame⟩ := exists_seenAlike hw ha hb
  rw [Store.isVariablyModified, Store.isVariablyModified, hv, hv', ok_bind, ok_bind]
  cases hsame with
  | array _ hbase | pointer hbase | leftRef hbase | rightRef hbase | bitfield _ _ hbase
  | memberPointer _ hbase =>
      dsimp only
      rw [hbase]
  | function _ hret hparams | memberFunction _ _ hret hparams =>
      dsimp only
      rw [hret, anyM_congr hparams.types fun part part' hpart =>
        congrArg store.isVariablyModified hpart]
  | _ => rfl

/-- A type that is no bit-field is its own unit, and one of its shape is its own. -/
theorem builtinBehind?_eq_of_shape : store.builtinBehind? a = store.builtinBehind? b := by
  obtain ⟨seen, seen', hv, hv', hsame⟩ := exists_seenAlike hw ha hb
  rw [Store.builtinBehind?, Store.builtinBehind?, Store.withoutBitfield, Store.withoutBitfield,
    hv, hv', ok_bind, ok_bind]
  cases hsame with
  | bitfield bits offset hbase =>
      dsimp only
      rw [hbase]
  | _ =>
      dsimp only
      rw [pure_bind, pure_bind, shape_eq_of_shape ha hb, unqualified_eq_of_shape ha hb]

end OneShape

/-! ### Variants -/

/-- Two questions are answered with one value or refused for one reason, and neither is at fault. -/
structure ConcurFaultless (x y : Except Failure α) : Prop where
  concur : Concur x y
  faultless : Faultless x

theorem ConcurFaultless.map {x y : Except Failure α} (h : ConcurFaultless x y) (f : α → β) :
    ConcurFaultless (do return f (← x)) (do return f (← y)) :=
  ⟨h.concur.bind fun _ => .refl _, h.faultless.bind fun _ _ => .pure _⟩

/-- Two types have the same layout, are complete and variably modified together, and have the same
base type and body, as far as they have any of these. -/
structure LaidOutAlike (store : Store) (a b : TypeId) : Prop where
  align : ConcurFaultless (store.align a) (store.align b)
  size : ConcurFaultless (store.size a) (store.size b)
  sizePoints : ConcurFaultless (store.sizePoints a) (store.sizePoints b)
  sizeWords : ConcurFaultless (store.sizeWords a) (store.sizeWords b)
  sizeBits : ConcurFaultless (store.sizeBits a) (store.sizeBits b)
  deferredSize : ConcurFaultless (store.deferredSize a) (store.deferredSize b)
  deferredPoints : ConcurFaultless (store.deferredPoints a) (store.deferredPoints b)
  deferredWords : ConcurFaultless (store.deferredWords a) (store.deferredWords b)
  isComplete : ∃ complete, outcome (Build.isComplete a) store = .ok complete ∧
    outcome (Build.isComplete b) store = .ok complete
  isVariablyModified : ∃ modified, store.isVariablyModified a = .ok modified ∧
    store.isVariablyModified b = .ok modified
  baseType : ConcurFaultless (store.baseType a) (store.baseType b)
  classBody : ConcurFaultless (store.classBody a) (store.classBody b)
  enumBody : ConcurFaultless (store.enumBody a) (store.enumBody b)
  integerRank : ∃ rank, store.integerRank? a = .ok rank ∧ store.integerRank? b = .ok rank
  fixedBits : ∃ bits, store.fixedBits? a = .ok bits ∧ store.fixedBits? b = .ok bits

/-- Types of one shape are laid out alike. -/
theorem Reachable.laidOutAlike (h : store.Reachable) (ha : store.node? a = some ⟨shape, own⟩)
    (hb : store.node? b = some ⟨shape, own'⟩) : store.LaidOutAlike a b := by
  have hw := h.wellFormed
  have hs := h.sound
  have hheld : store.Holds a := ⟨_, ha⟩
  have hsize : ConcurFaultless (store.size a) (store.size b) :=
    ⟨size_concur hw ha hb, hs.faultless_size hheld⟩
  have hdeferred : ConcurFaultless (store.deferredSize a) (store.deferredSize b) :=
    ⟨deferredSize_concur hw ha hb, hs.faultless_deferredSize hheld⟩
  obtain ⟨complete, hcomplete⟩ := hw.exists_isComplete hheld
  obtain ⟨modified, hmodified⟩ := hw.exists_isVariablyModified hheld
  obtain ⟨behind, hbehind⟩ := hw.exists_builtinBehind? h.integralEnums hheld
  have hsame := builtinBehind?_eq_of_shape hw ha hb
  exact {
    align := ⟨align_concur hw ha hb, hs.faultless_align hheld⟩
    size := hsize
    sizePoints := hsize.map _
    sizeWords := hsize.map _
    sizeBits := ⟨sizeBits_concur hw ha hb, hs.faultless_sizeBits hheld⟩
    deferredSize := hdeferred
    deferredPoints := ⟨hdeferred.concur.bind fun _ => .refl _, hs.faultless_deferredPoints hheld⟩
    deferredWords := by
      refine ⟨hdeferred.concur.bind fun _ => .refl _, hdeferred.faultless.bind fun bytes _ => ?_⟩
      obtain ⟨words, hdivide, _⟩ := SizeExpr.exists_divide bytes store.target.wordBytes_ne_zero
      rw [hdivide]
      exact .pure words
    isComplete := by
      refine ⟨complete, (h.truthful.outcome_isComplete a).trans hcomplete, ?_⟩
      rw [h.truthful.outcome_isComplete, ← isComplete_eq_of_shape hw ha hb]
      exact hcomplete
    isVariablyModified :=
      ⟨modified, hmodified, (isVariablyModified_eq_of_shape hw ha hb).symm.trans hmodified⟩
    baseType := ⟨baseType_concur ha hb, hheld.baseType⟩
    classBody := ⟨classBody_concur ha hb, hheld.classBody⟩
    enumBody := ⟨enumBody_concur ha hb, hheld.enumBody⟩
    integerRank := by
      rw [integerRank?, integerRank?, ← hsame, hbehind]
      exact ⟨_, rfl, rfl⟩
    fixedBits := by
      rw [Store.fixedBits?, Store.fixedBits?, ← hsame, hbehind, ok_bind]
      rcases behind with _ | builtin
      · exact ⟨none, rfl, rfl⟩
      · cases builtin <;> exact ⟨_, rfl, rfl⟩ }

/-- Qualifiers have no part in the layout of a type. The variant that was asked for is laid out as
the type without qualifiers, at once and whatever is asked afterwards. -/
theorem Reachable.qualified_as_plain {type : TypeId} (h : store.Reachable)
    (hh : store.Holds type) (qual : Qual PathId) :
    ∃ variant plain new, Build.qualify type qual store = .ok variant new ∧
      store.unqualified type = .ok plain ∧ new.qual variant = .ok qual ∧
      ∀ later, new.Runs later →
        later.unqualified type = .ok plain ∧ later.unqualified variant = .ok plain ∧
        later.LaidOutAlike variant plain := by
  have hw := h.wellFormed
  obtain ⟨plain, hplain⟩ := hh.exists_unqualified
  obtain ⟨variant, new, hrun, hgrows, hvariant, hqual⟩ := hw.exists_qualify hplain qual
  have hstep : (Request.qualify type qual).effect store = new := by
    rw [Request.effect, after, hrun]
  have hnew : new.Reachable := hstep ▸ h.effect trivial
  refine ⟨variant, plain, new, hrun, hplain, hqual, fun later hruns => ?_⟩
  have hext := (hruns.onward hnew.wellFormed).1
  have hlater := hnew.runs hruns
  have hvariant' := hext.unqualified hnew.wellFormed hvariant
  obtain ⟨shape, own, ha, hb⟩ := hlater.wellFormed.unqualified_eq_ok.mp hvariant'
  exact ⟨(hgrows.extends_.trans hext).unqualified hw hplain, hvariant', hlater.laidOutAlike ha hb⟩

/-- An open struct has no size, and neither has its constant variant. The struct is opened by way of
that variant, and once it is completed both have the size that it got. -/
theorem Reachable.qualified_as_plain_struct :
    let foo : TypeId := ⟨Builtin.all.length⟩
    let const : TypeId := ⟨Builtin.all.length + 1⟩
    let store := (Store.new .wide).afterAll [.path ["foo"], .enter (.classType ⟨1⟩ true)]
    store.Reachable ∧ store.Holds foo ∧
      ∃ new draft, Build.qualify foo Qual.const store = .ok const new ∧
        new.LaidOutAlike const foo ∧ new.size const = .error (.type (.incomplete const)) ∧
        new.size foo = .error (.type (.incomplete foo)) ∧ new.openClass const = .ok draft ∧
        ∃ later, new.Runs later ∧ later.LaidOutAlike const foo ∧
          later.size const = .ok 8 ∧ later.size foo = .ok 8 := by
  intro foo const store
  let draft := ClassDraft.new foo
  let requests : List Request := [.completeClass
    (draft.addData ⟨"a", .builtin (.int ⟨.int, true⟩), 4, .isPublic, false⟩)]
  have h : store.Reachable := (reachable_new .wide).afterAll (by
    simp [Request.Countable, TypeRequest.Countable])
  have hh : store.Holds foo := node?_of_lt (by decide +kernel)
  obtain ⟨variant, plain, new, hrun, hplain, _, halike⟩ := h.qualified_as_plain hh Qual.const
  have hvariant : outcome (Build.qualify foo Qual.const) store = .ok const := by decide +kernel
  have hfoo : store.unqualified foo = .ok foo := by decide +kernel
  have hafter : new = after (Build.qualify foo Qual.const) store := by rw [after, hrun]
  rw [outcome, hrun] at hvariant
  obtain rfl := Except.ok.inj hvariant
  obtain rfl := Except.ok.inj (hplain.symm.trans hfoo)
  have hruns : new.Runs (new.afterAll requests) :=
    runs_afterAll new (by simp [requests, Request.Countable])
  refine ⟨h, hh, new, draft, hrun, (halike new .refl).2.2, ?_, ?_, ?_, new.afterAll requests, hruns,
    (halike _ hruns).2.2, ?_, ?_⟩
  all_goals rw [hafter]; decide +kernel

end Store

end TypeGraph

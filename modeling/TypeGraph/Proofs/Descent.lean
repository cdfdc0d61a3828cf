import TypeGraph.Proofs.Asking
import TypeGraph.Proofs.Fixing
import TypeGraph.Proofs.Printing
import TypeGraph.Record.Save

/-!
Every chain of types ends. Main statement: in a store that requests led to, no type leads back to
itself, by the types that its shape names or by the type that an enum is stored as, so that every
question about a type comes to an end (`Store.Reachable.grounded`).
-/

namespace TypeGraph

variable {α β : Type}

namespace Store

variable {store : Store} {type part : TypeId}

/-- The shape of a type names another type: the one that it is built on, the class that it belongs
to, or one of its parameter list. -/
inductive Mentions (store : Store) (type : TypeId) : TypeId → Prop where
  | base {node : Node} {part : TypeId} (node_eq : store.node? type = some node)
      (base : node.shape.base? = some part) : Mentions store type part
  | owner {node : Node} {part : TypeId} (node_eq : store.node? type = some node)
      (owner : node.shape.owner? = some part) : Mentions store type part
  | listed {node : Node} {set : ParamSetId} {params : ParamSet} {part : TypeId}
      (node_eq : store.node? type = some node) (set_eq : node.shape.params? = some set)
      (params_eq : store.paramSet set = .ok params) (mem : part ∈ params.types) :
      Mentions store type part

/-- A question about a type may go on to another one: to one that its shape names, to the one that a
finished enum is stored as, or to the one that a builtin type is derived from. -/
inductive LeadsTo (store : Store) (type : TypeId) : TypeId → Prop where
  | named {part : TypeId} (mentions : store.Mentions type part) : LeadsTo store type part
  | stored {body : EnumBody} (body_eq : store.enumBody type = .ok body) :
      LeadsTo store type body.base
  | derived {builtin base : Builtin} {own : Qual PathId}
      (node_eq : store.node? type = some ⟨.builtin builtin, own⟩)
      (base_eq : builtin.base? = some base) : LeadsTo store type (.builtin base)

/-! ### What is seen of a type -/

/-- What is seen of a type are the very types and parameter lists that its shape names. -/
theorem rel_of_view {node : Node} (hn : store.node? type = some node) {seen : View type}
    (hv : store.view type = .ok seen) :
    Shape.Rel (fun part below => below.type = part)
      (fun set parts => ∃ params, store.paramSet set = .ok params ∧
        Params.Rel (fun part below => below.type = part) params parts) (· = ·) node.shape seen := by
  obtain ⟨wanted, own, ⟨shape, hn', hs⟩, hsee⟩ := view_eq_ok.mp hv
  cases hn.symm.trans hn'
  refine (Shape.Rel.comp.mpr ⟨wanted, spelling_eq_ok.mp hs, hsee⟩).imp ?_ ?_ ?_
  · rintro part below ⟨_, rfl, h⟩
    exact h
  · rintro set parts h
    exact h
  · rintro name name' ⟨_, rfl, h⟩
    exact h

theorem view_class (hw : store.WellFormed) {name : PathId} {isStruct : Bool} {own : Qual PathId}
    (hn : store.node? type = some ⟨.classType name isStruct, own⟩) :
    store.view type = .ok (.classType name isStruct) := by
  obtain ⟨seen, hv⟩ := hw.view hn
  cases rel_of_view hn hv with
  | classType _ hname => exact hname ▸ hv

theorem view_enum (hw : store.WellFormed) {name : PathId} {own : Qual PathId}
    (hn : store.node? type = some ⟨.enumType name, own⟩) :
    store.view type = .ok (.enumType name) := by
  obtain ⟨seen, hv⟩ := hw.view hn
  cases rel_of_view hn hv with
  | enumType hname => exact hname ▸ hv

theorem view_builtin (hw : store.WellFormed) {builtin : Builtin} {own : Qual PathId}
    (hn : store.node? type = some ⟨.builtin builtin, own⟩) :
    store.view type = .ok (.builtin builtin) := by
  obtain ⟨seen, hv⟩ := hw.view hn
  cases rel_of_view hn hv with
  | builtin => exact hv

theorem view_array (hw : store.WellFormed) {base : TypeId} {extent : Extent} {own : Qual PathId}
    (hn : store.node? type = some ⟨.array base extent, own⟩) :
    ∃ part : Below type, part.type = base ∧ store.view type = .ok (.array part extent) := by
  obtain ⟨seen, hv⟩ := hw.view hn
  cases rel_of_view hn hv with
  | array _ hb => exact ⟨_, hb, hv⟩

theorem view_bitfield (hw : store.WellFormed) {base : TypeId} {bits offset : UInt32}
    {own : Qual PathId} (hn : store.node? type = some ⟨.bitfield base bits offset, own⟩) :
    ∃ part : Below type, part.type = base ∧ store.view type = .ok (.bitfield part bits offset) := by
  obtain ⟨seen, hv⟩ := hw.view hn
  cases rel_of_view hn hv with
  | bitfield _ _ hb => exact ⟨_, hb, hv⟩

/-! ### No type leads back to itself -/

end Store

theorem Builtin.slot_lt_of_base? {builtin base : Builtin} (h : builtin.base? = some base) :
    base.slot < builtin.slot := by
  have hall : ∀ builtin ∈ all, ∀ base ∈ builtin.base?, base.slot < builtin.slot := by decide +kernel
  exact hall builtin (mem_all builtin) base h

theorem Builtin.slot_lt_length (builtin : Builtin) : builtin.slot < all.length :=
  List.idxOf_lt_length_of_mem (mem_all builtin)

namespace Store

variable {store : Store} {type part : TypeId}

/-- How far a question about a type may go at most: builtin types in their order come first, then
enums, which may be stored as a type that is newer than they are, then all others by age. -/
def rank (store : Store) (type : TypeId) : Nat :=
  match store.node? type with
  | some ⟨.builtin builtin, _⟩ => builtin.slot
  | some ⟨.enumType _, _⟩ => Builtin.all.length
  | _ => Builtin.all.length + 1 + type.index

theorem rank_builtin {builtin : Builtin} {own : Qual PathId}
    (hn : store.node? type = some ⟨.builtin builtin, own⟩) : store.rank type = builtin.slot := by
  rw [rank, hn]

theorem rank_enum {name : PathId} {own : Qual PathId}
    (hn : store.node? type = some ⟨.enumType name, own⟩) :
    store.rank type = Builtin.all.length := by
  rw [rank, hn]

theorem rank_le (store : Store) (type : TypeId) :
    store.rank type ≤ Builtin.all.length + 1 + type.index := by
  unfold rank
  split
  next builtin _ _ =>
      have := builtin.slot_lt_length
      omega
  · omega
  · exact Nat.le_refl _

theorem Mentions.rank (h : store.Mentions type part) :
    store.rank type = Builtin.all.length + 1 + type.index := by
  obtain ⟨⟨shape, own⟩, hn, hs⟩ : ∃ node, store.node? type = some node ∧
      (node.shape.base? ≠ none ∨ node.shape.owner? ≠ none ∨ node.shape.params? ≠ none) := by
    cases h with
    | base hn hb => exact ⟨_, hn, by simp [hb]⟩
    | owner hn ho => exact ⟨_, hn, by simp [ho]⟩
    | listed hn hs => exact ⟨_, hn, by simp [hs]⟩
  rw [Store.rank, hn]
  cases shape with
  | builtin builtin | enumType name => simp [Shape.base?, Shape.owner?, Shape.params?] at hs
  | _ => rfl

theorem WellFormed.lt_of_mentions (hw : store.WellFormed) (h : store.Mentions type part) :
    part.index < type.index := by
  cases h with
  | base hn hb => exact (hw.shapes type _ hn).base part hb
  | owner hn ho => exact ((hw.shapes type _ hn).owner part ho).1
  | listed hn hs hp hm =>
      obtain ⟨params, hp', hlt, _⟩ := (hw.shapes type _ hn).params _ hs
      cases hp.symm.trans hp'
      exact hlt part hm

theorem WellFormed.holds_of_mentions (hw : store.WellFormed) (hh : store.Holds type)
    (h : store.Mentions type part) : store.Holds part := by
  obtain ⟨node, hn⟩ := hh
  exact node?_of_lt (Nat.lt_trans (hw.lt_of_mentions h) (lt_size_of_node? hn))

/-- A builtin boolean, character or integer, however qualified. -/
def IsIntegral (store : Store) (type : TypeId) : Prop :=
  ∃ builtin own, store.node? type = some ⟨.builtin builtin, own⟩ ∧
    (builtin.kind = .bool ∨ builtin.kind = .char ∨ builtin.kind = .integer)

theorem isIntegral_of_isInteger {kind : Kind} (hk : store.kind type = .ok kind)
    (hi : (!kind.isInteger || kind.isNamed) = false) : store.IsIntegral type := by
  obtain ⟨⟨shape, own⟩, hn, rfl⟩ := kind_eq_ok.mp hk
  obtain ⟨builtin, hb, _⟩ := builtin?_of_isInteger hi
  cases shape with
  | builtin type =>
      refine ⟨type, own, hn, ?_⟩
      cases type with
      | bool => exact Or.inl rfl
      | char => exact Or.inr (Or.inl rfl)
      | int => exact Or.inr (Or.inr rfl)
      | _ => cases hi
  | _ => cases hb

/-- Enums are stored as builtin integers. -/
def IntegralEnums (store : Store) : Prop :=
  ∀ type body, store.enumBody? type = some body → store.IsIntegral body.base

theorem Reachable.integralEnums (h : store.Reachable) : store.IntegralEnums := by
  intro type body hb
  have hm := mem_of_definition? (enumBody?_eq_some.mp hb)
  cases h.fitting _ hm with
  | ofEnum _ hk hi => exact isIntegral_of_isInteger hk hi

/-- A question never goes on to a type of the same rank or a higher one. -/
theorem WellFormed.rank_lt (hw : store.WellFormed) (hi : store.IntegralEnums)
    (h : store.LeadsTo type part) : store.rank part < store.rank type := by
  cases h with
  | named hm =>
      have hle := store.rank_le part
      have hlt := hw.lt_of_mentions hm
      rw [hm.rank]
      omega
  | stored hb =>
      -- The base may be newer than the enum, but it is a builtin type, and those rank lowest.
      obtain ⟨owner, ho, hd⟩ := enumBody_eq_ok.mp hb
      obtain ⟨⟨shape, own⟩, hn, hk, _⟩ := enumOwner_eq_ok.mp ho
      obtain ⟨name, rfl⟩ := shape_of_kind_enum hk
      obtain ⟨builtin, own', hbase, _⟩ := hi owner _ (enumBody?_eq_some.mpr hd)
      rw [rank_enum hn, rank_builtin hbase]
      exact builtin.slot_lt_length
  | @derived builtin base own hn hb =>
      rw [rank_builtin hn, rank_builtin (hw.node?_builtin base)]
      exact Builtin.slot_lt_of_base? hb

/-- No chain of questions goes on forever. -/
theorem WellFormed.wellFounded_leadsTo (hw : store.WellFormed) (hi : store.IntegralEnums) :
    WellFounded fun part type => store.LeadsTo type part :=
  Subrelation.wf (hw.rank_lt hi) (measure store.rank).wf

/-! ### Taking base types -/

theorem enumBody_cases {name : PathId} {own : Qual PathId}
    (hn : store.node? type = some ⟨.enumType name, own⟩) :
    (∃ error, store.enumBody type = .error (.type error)) ∨
      ∃ body, store.enumBody type = .ok body := by
  obtain ⟨owner, ho⟩ := exists_enumOwner hn
  rw [Store.enumBody, ho, ok_bind]
  cases store.enumBody? owner with
  | none => exact Or.inl ⟨_, rfl⟩
  | some body => exact Or.inr ⟨body, rfl⟩

theorem IsIntegral.holds (h : store.IsIntegral type) : store.Holds type := by
  obtain ⟨builtin, own, hn, _⟩ := h
  exact ⟨_, hn⟩

theorem IntegralEnums.base (hi : store.IntegralEnums) {body : EnumBody}
    (hb : store.enumBody type = .ok body) : store.IsIntegral body.base := by
  obtain ⟨owner, _, hd⟩ := enumBody_eq_ok.mp hb
  exact hi owner body (enumBody?_eq_some.mpr hd)

theorem baseType_cases (hw : store.WellFormed) (hi : store.IntegralEnums) (h : store.Holds type) :
    (∃ error, store.baseType type = .error (.type error)) ∨
      ∃ base, store.baseType type = .ok base ∧ store.LeadsTo type base ∧ store.Holds base := by
  obtain ⟨⟨shape, own⟩, hn⟩ := h
  rw [Store.baseType, shape_eq_ok.mpr ⟨_, hn, rfl⟩, ok_bind]
  cases shape with
  | array base extent | bitfield base bits offset | pointer base | leftRef base | rightRef base
  | memberPointer owner base | function base params conv | memberFunction owner base params conv =>
      have hheld : store.Holds base := node?_of_lt ((hw.fits hn).base base rfl)
      exact Or.inr ⟨base, rfl, .named (.base hn rfl), hheld⟩
  | tuple parts | classType name isStruct => exact Or.inl ⟨_, rfl⟩
  | builtin builtin =>
      cases hb : builtin.base? with
      | none => exact Or.inl ⟨.noBaseType type, by simp [Shape.base?, hb, orFail]⟩
      | some base =>
          refine Or.inr ⟨.builtin base, ?_, .derived hn hb, _, hw.node?_builtin base⟩
          simp [Shape.base?, hb, orFail]
  | enumType name =>
      rcases enumBody_cases hn with ⟨error, he⟩ | ⟨body, hb⟩
      · exact Or.inl ⟨error, by simp [Shape.base?, he, bind, Except.bind]⟩
      · refine Or.inr ⟨body.base, ?_, .stored hb, (hi.base hb).holds⟩
        simp [Shape.base?, hb, bind, Except.bind, pure, Except.pure]

theorem exists_last_base (hw : store.WellFormed) (hi : store.IntegralEnums)
    (h : store.Holds type) :
    ∃ last error, Relation.ReflTransGen (fun a b => store.baseType a = .ok b) type last ∧
      store.baseType last = .error (.type error) := by
  induction type using (hw.wellFounded_leadsTo hi).induction with
  | _ type ih =>
      rcases baseType_cases hw hi h with ⟨error, he⟩ | ⟨base, hb, hleads, hheld⟩
      · exact ⟨type, error, .refl, he⟩
      · obtain ⟨last, error, hchain, he⟩ := ih base hleads hheld
        exact ⟨last, error, .head hb hchain, he⟩

/-! ### Questions about a type and its parts -/

/-- What holds of a type whenever it holds of all older ones holds of every type of the store. -/
theorem WellFormed.induct (hw : store.WellFormed) {P : TypeId → Prop}
    (step : ∀ type (seen : View type), store.view type = .ok seen →
      (∀ part : Below type, P part.type) → P type) (h : store.Holds type) : P type := by
  induction hi : type.index using Nat.strongRecOn generalizing type with
  | _ i ih =>
      subst hi
      obtain ⟨node, hn⟩ := h
      obtain ⟨seen, hv⟩ := hw.view hn
      exact step type seen hv fun part =>
        ih part.type.index part.older (Holds.below ⟨node, hn⟩ part) rfl

theorem exists_allM {f : α → Except Failure Bool} {as : List α}
    (h : ∀ a ∈ as, ∃ b, f a = .ok b) : ∃ b, as.allM f = .ok b := by
  induction as with
  | nil => exact ⟨true, rfl⟩
  | cons a as ih =>
      obtain ⟨b, ha⟩ := h a List.mem_cons_self
      rw [List.allM, ha, ok_bind]
      cases b with
      | true => exact ih fun other hm => h other (List.mem_cons_of_mem a hm)
      | false => exact ⟨false, rfl⟩

theorem exists_anyM {f : α → Except Failure Bool} {as : List α}
    (h : ∀ a ∈ as, ∃ b, f a = .ok b) : ∃ b, as.anyM f = .ok b := by
  induction as with
  | nil => exact ⟨false, rfl⟩
  | cons a as ih =>
      obtain ⟨b, ha⟩ := h a List.mem_cons_self
      rw [List.anyM, ha, ok_bind]
      cases b with
      | true => exact ⟨true, rfl⟩
      | false => exact ih fun other hm => h other (List.mem_cons_of_mem a hm)

theorem Holds.exists_unqualified (h : store.Holds type) :
    ∃ plain, store.unqualified type = .ok plain := by
  obtain ⟨node, hn⟩ := h
  exact ⟨_, unqualified_eq_ok.mpr ⟨node, hn, rfl⟩⟩

theorem WellFormed.exists_isComplete (hw : store.WellFormed) (h : store.Holds type) :
    ∃ complete, store.isComplete type = .ok complete := by
  refine hw.induct (P := fun type => ∃ complete, store.isComplete type = .ok complete)
    (fun type seen hv ih => ?_) h
  rw [Store.isComplete, hv, ok_bind]
  cases seen with
  | array base extent =>
      cases he : extent.isComplete with
      | true => simpa [he] using ih base
      | false => exact ⟨false, by simp [he]⟩
  | bitfield base bits offset => exact ih base
  | tuple parts => exact exists_allM fun part _ => ih part
  | classType name isStruct | enumType name =>
      obtain ⟨plain, hp⟩ := (holds_of_view hv).exists_unqualified
      exact ⟨_, bind_eq_ok.mpr ⟨plain, hp, rfl⟩⟩
  | _ => exact ⟨_, rfl⟩

theorem WellFormed.exists_isVariablyModified (hw : store.WellFormed) (h : store.Holds type) :
    ∃ modified, store.isVariablyModified type = .ok modified := by
  refine hw.induct (P := fun type => ∃ modified, store.isVariablyModified type = .ok modified)
    (fun type seen hv ih => ?_) h
  rw [Store.isVariablyModified, hv, ok_bind]
  cases seen with
  | array base extent =>
      cases he : extent.isVariable with
      | true => exact ⟨true, by simp [he]⟩
      | false => simpa [he] using ih base
  | pointer base | leftRef base | rightRef base | bitfield base bits offset
  | memberPointer owner base => exact ih base
  | function ret params conv | memberFunction owner ret params conv =>
      obtain ⟨modified, hr⟩ := ih ret
      dsimp only
      rw [hr, ok_bind]
      cases modified with
      | true => exact ⟨true, rfl⟩
      | false => exact exists_anyM fun part _ => ih part
  | _ => exact ⟨_, rfl⟩

theorem WellFormed.exists_withoutBitfield (hw : store.WellFormed) (h : store.Holds type) :
    ∃ unit node, store.withoutBitfield type = .ok unit ∧ store.node? unit = some node ∧
      node.shape.bits? = none := by
  refine hw.induct (P := fun type => ∃ unit node, store.withoutBitfield type = .ok unit ∧
    store.node? unit = some node ∧ node.shape.bits? = none) (fun type seen hv ih => ?_) h
  rw [Store.withoutBitfield, hv, ok_bind]
  obtain ⟨node, hn⟩ := holds_of_view hv
  have hbits := (rel_of_view hn hv).bits?_eq
  cases seen with
  | bitfield base bits offset => exact ih base
  | _ => exact ⟨type, node, rfl, hn, hbits⟩

theorem WellFormed.exists_arrayRank (hw : store.WellFormed) (h : store.Holds type) :
    ∃ rank, store.arrayRank type = .ok rank := by
  refine hw.induct (P := fun type => ∃ rank, store.arrayRank type = .ok rank)
    (fun type seen hv ih => ?_) h
  rw [Store.arrayRank, hv, ok_bind]
  cases seen with
  | array base extent =>
      obtain ⟨rank, hr⟩ := ih base
      exact ⟨rank + 1, bind_eq_ok.mpr ⟨rank, hr, rfl⟩⟩
  | _ => exact ⟨0, rfl⟩

theorem WellFormed.exists_arrayElement (hw : store.WellFormed) (h : store.Holds type) :
    ∃ element node, store.arrayElement type = .ok element ∧ store.node? element = some node ∧
      node.shape.extent? = none := by
  refine hw.induct (P := fun type => ∃ element node, store.arrayElement type = .ok element ∧
    store.node? element = some node ∧ node.shape.extent? = none) (fun type seen hv ih => ?_) h
  rw [Store.arrayElement, hv, ok_bind]
  obtain ⟨node, hn⟩ := holds_of_view hv
  have hextent := (rel_of_view hn hv).extent?_eq
  cases seen with
  | array base extent => exact ih base
  | _ => exact ⟨type, node, rfl, hn, hextent⟩

theorem WellFormed.exists_builtinBehind? (hw : store.WellFormed) (hi : store.IntegralEnums)
    (h : store.Holds type) : ∃ found, store.builtinBehind? type = .ok found := by
  obtain ⟨unit, ⟨shape, own⟩, hunit, hn, _⟩ := hw.exists_withoutBitfield h
  rw [Store.builtinBehind?, hunit, ok_bind, shape_eq_ok.mpr ⟨_, hn, rfl⟩, ok_bind]
  cases shape with
  | enumType name =>
      obtain ⟨plain, hp⟩ := Holds.exists_unqualified ⟨_, hn⟩
      dsimp only
      rw [hp, ok_bind]
      cases hb : store.enumBody? plain with
      | none => exact ⟨none, rfl⟩
      | some body =>
          obtain ⟨builtin, own', hbase, _⟩ := hi plain body hb
          exact ⟨some builtin, builtinOf?_eq_ok.mpr ⟨_, hbase, rfl⟩⟩
  | _ => exact ⟨_, rfl⟩

/-- A size that is left to run time is given or refused, and never at fault. -/
theorem Sound.faultless_deferredSize (hs : store.Sound) (h : store.Holds type) :
    Faultless (store.deferredSize type) := by
  refine hs.wellFormed.induct (P := fun type => Faultless (store.deferredSize type))
    (fun type seen hv ih => ?_) h
  have hsize := hs.faultless_size (holds_of_view hv)
  rw [Store.deferredSize, hv, ok_bind]
  cases seen with
  | array base extent =>
      cases extent with
      | incomplete | unspecified => exact .throw _
      | _ => exact (ih base).bind fun _ _ => .orFail _ _
  | _ => exact hsize.bind fun _ _ => .pure _

/-! ### Finished enums -/

/-- A finished enum is laid out, and used, as the type that it is stored as. -/
theorem IntegralEnums.as_base (hi : store.IntegralEnums) (hw : store.WellFormed) {body : EnumBody}
    (hb : store.enumBody type = .ok body) :
    store.size type = store.size body.base ∧ store.align type = store.align body.base ∧
      store.builtinBehind? type = store.builtinBehind? body.base := by
  obtain ⟨owner, ho, hd⟩ := enumBody_eq_ok.mp hb
  obtain ⟨⟨shape, own⟩, hn, hk, hid⟩ := enumOwner_eq_ok.mp ho
  obtain ⟨name, rfl⟩ := shape_of_kind_enum hk
  obtain ⟨builtin, own', hbase, hkind⟩ := hi.base hb
  have hcomplete : builtin.isComplete = true := by
    cases builtin <;> first | rfl | simp [Builtin.kind] at hkind
  have hstorage : store.enumStorage type = .ok builtin :=
    enumStorage_eq_ok.mpr ⟨body, hb, builtinOf?_eq_ok.mpr ⟨_, hbase, rfl⟩⟩
  refine ⟨?_, ?_, ?_⟩
  · obtain ⟨size, hs⟩ := Option.isSome_iff_exists.mp
      ((Builtin.isSome_size? store.target).trans hcomplete)
    rw [Store.size, view_enum hw hn, Store.size, view_builtin hw hbase]
    simp only [ok_bind, hstorage, hs]
    rfl
  · obtain ⟨align, ha⟩ := Option.isSome_iff_exists.mp
      ((Builtin.isSome_align? store.target).trans hcomplete)
    rw [Store.align, view_enum hw hn, Store.align, view_builtin hw hbase]
    simp only [ok_bind, hstorage, ha]
    rfl
  · have hself : store.withoutBitfield type = .ok type := by
      rw [Store.withoutBitfield, view_enum hw hn]
      rfl
    have hself' : store.withoutBitfield body.base = .ok body.base := by
      rw [Store.withoutBitfield, view_builtin hw hbase]
      rfl
    have hplain : store.unqualified type = .ok owner := unqualified_eq_ok.mpr ⟨_, hn, hid⟩
    have hof : store.builtinOf? body.base = .ok (some builtin) :=
      builtinOf?_eq_ok.mpr ⟨_, hbase, rfl⟩
    rw [Store.builtinBehind?, Store.builtinBehind?, hself, hself', ok_bind, ok_bind,
      shape_eq_ok.mpr ⟨_, hn, rfl⟩, shape_eq_ok.mpr ⟨_, hbase, rfl⟩, ok_bind, ok_bind]
    dsimp only
    rw [hplain, ok_bind, enumBody?_eq_some.mpr hd]
    exact hof

/-! ### The graph of types -/

/-- Every question about a type comes to an end: it is answered, or refused with a reason. What is
seen of the type are the very types that its shape names, so nothing is refused for their age. -/
structure Concludes (store : Store) (type : TypeId) : Prop where
  seen : ∃ (node : Node) (seen : View type), store.node? type = some node ∧
    store.view type = .ok seen ∧ Shape.Rel (fun part below => below.type = part)
      (fun set parts => ∃ params, store.paramSet set = .ok params ∧
        Params.Rel (fun part below => below.type = part) params parts) (· = ·) node.shape seen
  size : Faultless (store.size type)
  align : Faultless (store.align type)
  deferredSize : Faultless (store.deferredSize type)
  isComplete : ∃ complete, store.isComplete type = .ok complete ∧
    outcome (Build.isComplete type) store = .ok complete
  isVariablyModified : ∃ modified, store.isVariablyModified type = .ok modified
  builtinBehind? : ∃ found, store.builtinBehind? type = .ok found
  withoutBitfield : ∃ unit node, store.withoutBitfield type = .ok unit ∧
    store.node? unit = some node ∧ node.shape.bits? = none
  arrayRank : ∃ rank, store.arrayRank type = .ok rank
  arrayElement : ∃ element node, store.arrayElement type = .ok element ∧
    store.node? element = some node ∧ node.shape.extent? = none
  printed : ∃ tree, store.tree type = .ok tree ∧ store.display type = tree.display ∧
    store.signature type = Signature.ofTree tree ∧ store.save type = tree.record
  stored : ∀ body, store.enumBody type = .ok body →
    store.size type = store.size body.base ∧ store.align type = store.align body.base ∧
      store.builtinBehind? type = store.builtinBehind? body.base
  bases : ∃ last error,
    Relation.ReflTransGen (fun a b => store.baseType a = .ok b) type last ∧
      store.baseType last = .error (.type error)

/-- The types that a shape names are older than it, members belong to classes without qualifiers,
the components of tuples are closed lists, and enums are stored as builtin integers. Thus no chain
of types goes on forever. -/
structure Grounded (store : Store) : Prop where
  older : ∀ type part, store.Mentions type part → part.index < type.index
  owners : ∀ type node owner, store.node? type = some node → node.shape.owner? = some owner →
    ∃ name isStruct, store.node? owner = some (.plain (.classType name isStruct))
  tuples : ∀ type set own, store.node? type = some ⟨.tuple set, own⟩ →
    ∃ params, store.paramSet set = .ok params ∧ params.variadic = false
  enums : store.IntegralEnums
  chains : WellFounded fun part type => store.LeadsTo type part
  questions : ∀ type, store.Holds type → store.Concludes type

theorem Reachable.concludes (hr : store.Reachable) (h : store.Holds type) :
    store.Concludes type := by
  have hw := hr.wellFormed
  have hi := hr.integralEnums
  obtain ⟨node, hn⟩ := h
  obtain ⟨seen, hv⟩ := hw.view hn
  have h : store.Holds type := ⟨node, hn⟩
  obtain ⟨complete, hc⟩ := hw.exists_isComplete h
  obtain ⟨tree, ht⟩ := hw.exists_tree h
  exact {
    seen := ⟨node, seen, hn, hv, rel_of_view hn hv⟩
    size := hr.sound.faultless_size h
    align := hr.sound.faultless_align h
    deferredSize := hr.sound.faultless_deferredSize h
    isComplete := ⟨complete, hc, (hr.truthful.outcome_isComplete type).trans hc⟩
    isVariablyModified := hw.exists_isVariablyModified h
    builtinBehind? := hw.exists_builtinBehind? hi h
    withoutBitfield := hw.exists_withoutBitfield h
    arrayRank := hw.exists_arrayRank h
    arrayElement := hw.exists_arrayElement h
    printed := ⟨tree, ht, by rw [Store.display, ht]; rfl, by rw [Store.signature, ht]; rfl,
      by rw [Store.save, ht]⟩
    stored := fun _ hb => hi.as_base hw hb
    bases := exists_last_base hw hi h }

/-- Whatever was asked of a store, its types rest on older ones, and every question about them comes
to an end. -/
theorem Reachable.grounded (h : store.Reachable) : store.Grounded where
  older _ _ hm := h.wellFormed.lt_of_mentions hm
  owners type _ owner hn ho := ((h.wellFormed.shapes type _ hn).owner owner ho).2
  tuples type set _ hn := by
    obtain ⟨params, hp, _, hclosed⟩ := (h.wellFormed.shapes type _ hn).params set rfl
    exact ⟨params, hp, hclosed rfl⟩
  enums := h.integralEnums
  chains := h.wellFormed.wellFounded_leadsTo h.integralEnums
  questions _ hh := h.concludes hh

/-- An enum that is stored as a type newer than itself, and a bit-field over it. -/
theorem Reachable.grounded_enum :
    let enum : TypeId := ⟨Builtin.all.length⟩
    let base : TypeId := ⟨Builtin.all.length + 1⟩
    let field : TypeId := ⟨Builtin.all.length + 2⟩
    let requests : List Request := [.path ["e"], .enter (.enumType ⟨1⟩),
      .qualify (.builtin (.bool .hard)) Qual.const, .completeEnum (.new enum) base,
      .enter (.bitfield enum 1 0)]
    let store := (Store.new .wide).afterAll requests
    store.Reachable ∧ store.LeadsTo field enum ∧ store.LeadsTo enum base ∧
      enum.index < base.index ∧ (WellFounded fun part type => store.LeadsTo type part) ∧
      store.size enum = store.size base ∧ store.Concludes field := by
  intro enum base field requests store
  have hr : store.Reachable := (reachable_new .wide).afterAll (by
    simp [requests, Request.Countable, TypeRequest.Countable])
  have hfield : store.node? field = some (.plain (.bitfield enum 1 0)) := by decide +kernel
  have hbody : store.enumBody enum = .ok ⟨.plain, [], base⟩ := by decide +kernel
  have hg := hr.grounded
  exact ⟨hr, .named (.base hfield rfl), .stored hbody, Nat.lt_succ_self _, hg.chains,
    ((hg.questions enum (node?_of_lt (by decide +kernel))).stored _ hbody).1,
    hg.questions field ⟨_, hfield⟩⟩

end Store

end TypeGraph

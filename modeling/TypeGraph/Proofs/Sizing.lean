import TypeGraph.Proofs.Completion
import TypeGraph.Proofs.Unfolding

/-!
Sizes rest on what a type is built from and on the bodies fixed by then. Main statements: what has a
size in one store has the same size in another one that mirrors it (`Store.Mirrors.size`), and so
has a class that is laid out (`Store.Mirrors.classLayout`).
-/

namespace TypeGraph

/-- A fold over one list succeeds as one over a related list does, if each step does. -/
theorem foldlM_eq_ok {α β σ ε : Type} {f : σ → α → Except ε σ} {g : σ → β → Except ε σ}
    {R : α → β → Prop} (h : ∀ s a b s', R a b → f s a = .ok s' → g s b = .ok s') {as : List α}
    {bs : List β} (hr : List.Forall₂ R as bs) :
    ∀ {s s' : σ}, as.foldlM f s = .ok s' → bs.foldlM g s = .ok s' := by
  induction hr with
  | nil => exact fun hf => hf
  | @cons a b as bs hab _ ih =>
      intro s s' hf
      rw [List.foldlM_cons, bind_eq_ok] at hf ⊢
      obtain ⟨mid, ha, hf⟩ := hf
      exact ⟨mid, h s a b mid hab ha, ih hf⟩

theorem lookup_eq_none {α β : Type} [BEq α] [LawfulBEq α] {list : List (α × β)} {key : α} :
    list.lookup key = none ↔ key ∉ list.map Prod.fst := by
  rw [List.lookup_eq_none_iff]
  constructor
  · intro h hmem
    obtain ⟨entry, hm, rfl⟩ := List.mem_map.mp hmem
    simpa using h entry hm
  · intro h entry hm
    rw [bne_iff_ne]
    rintro rfl
    exact h (List.mem_map.mpr ⟨entry, hm, rfl⟩)

theorem mem_of_lookup {α β : Type} [BEq α] [LawfulBEq α] {list : List (α × β)} {key : α} {value : β}
    (h : list.lookup key = some value) : (key, value) ∈ list := by
  obtain ⟨front, back, rfl, _⟩ := List.lookup_eq_some_iff.mp h
  exact List.mem_append_right _ List.mem_cons_self

theorem mapError_eq_ok {α ε ε' : Type} {f : ε → ε'} {x : Except ε α} {a : α} :
    x.mapError f = .ok a ↔ x = .ok a := by
  cases x <;> simp [Except.mapError]

namespace Store

variable {old new : Store} {R : TypeId → TypeId → Prop}

/-- The spelling of a type is one. -/
theorem spells_unique {store : Store} {type : TypeId} {a b : WantedShape} {own own' : Qual PathId}
    (ha : store.Spells type a own) (hb : store.Spells type b own') : a = b ∧ own = own' := by
  obtain ⟨shape, hn, hs⟩ := ha
  obtain ⟨shape', hn', hs'⟩ := hb
  rw [hn] at hn'
  cases hn'
  rw [hs] at hs'
  cases hs'
  exact ⟨rfl, rfl⟩

/-- Whatever a size in `old` rests on is found in `new`, for the pairs of types that `R` relates:
the machine, the parts of a type, and the bodies of classes and enums fixed by then. -/
structure Mirrors (R : TypeId → TypeId → Prop) (old new : Store) : Prop where
  target : new.target = old.target
  parts : ∀ x y, R x y → ∀ wanted own, old.Spells x wanted own → ∃ wanted' own',
    new.Spells y wanted' own' ∧ Shape.Rel R (Params.Rel R) (fun _ _ => True) wanted wanted' ∧
      own'.space.storage = own.space.storage
  classes : ∀ x y, R x y → ∀ body, old.classBody x = .ok body → ∃ body',
    new.classBody y = .ok body' ∧ body'.size = body.size ∧ body'.align = body.align
  enums : ∀ x y, R x y → ∀ builtin, old.enumStorage x = .ok builtin →
    new.enumStorage y = .ok builtin

namespace Mirrors

/-- Related types are seen with related parts. -/
theorem view (hm : Mirrors R old new) (hw : new.WellFormed) {x y : TypeId} (hr : R x y)
    {seen : View x} (hv : old.view x = .ok seen) :
    ∃ seen', new.view y = .ok seen' ∧ Shape.Rel (fun a b => R a.type b.type)
      (Params.Rel fun a b => R a.type b.type) (fun _ _ => True) seen seen' := by
  obtain ⟨wanted, own, hs, hsee⟩ := view_eq_ok.mp hv
  obtain ⟨wanted', own', hs', hrel, _⟩ := hm.parts x y hr wanted own hs
  have ⟨shape, hn, _⟩ := hs'
  obtain ⟨seen', hv'⟩ := hw.view hn
  obtain ⟨_, _, hs'', hsee'⟩ := view_eq_ok.mp hv'
  obtain ⟨rfl, rfl⟩ := spells_unique hs' hs''
  refine ⟨seen', hv', ?_⟩
  refine (Shape.Rel.comp.mpr ⟨wanted, hsee.flip, Shape.Rel.comp.mpr ⟨wanted', hrel, hsee'⟩⟩).imp
    ?_ ?_ (fun _ _ _ => trivial)
  · rintro a b ⟨_, rfl, _, hab, rfl⟩
    exact hab
  · rintro a b ⟨params, ha, params', hab, hb⟩
    refine (Params.Rel.comp.mpr ⟨params, ha.flip, Params.Rel.comp.mpr ⟨params', hab, hb⟩⟩).imp ?_
    rintro a b ⟨_, rfl, _, hab, rfl⟩
    exact hab

/-- Related types lie in the same storage. -/
theorem storage (hm : Mirrors R old new) (hw : old.WellFormed) {x y : TypeId} (hr : R x y)
    {own : Qual PathId} (hq : old.qual x = .ok own) :
    ∃ own', new.qual y = .ok own' ∧ own'.space.storage = own.space.storage := by
  obtain ⟨node, hn, rfl⟩ := qual_eq_ok.mp hq
  obtain ⟨wanted, hs⟩ := hw.spells hn
  obtain ⟨_, own', ⟨shape, hn', _⟩, _, hstorage⟩ := hm.parts x y hr wanted node.qual hs
  exact ⟨own', qual_eq_ok.mpr ⟨_, hn', rfl⟩, hstorage⟩

theorem pointerSize (hm : Mirrors R old new) (hw : old.WellFormed) {x y : TypeId} (hr : R x y)
    {size : Count} (h : old.pointerSize x = .ok size) : new.pointerSize y = .ok size := by
  unfold Store.pointerSize at h ⊢
  obtain ⟨own, hq, h⟩ := bind_eq_ok.mp h
  obtain ⟨own', hq', hstorage⟩ := hm.storage hw hr hq
  refine bind_eq_ok.mpr ⟨own', hq', ?_⟩
  rw [hstorage, hm.target]
  exact h

variable (hm : Mirrors R old new) (hw : old.WellFormed) (hw' : new.WellFormed)
include hm hw hw'

/-- Related types are aligned alike. -/
theorem align {x y : TypeId} (hr : R x y) {align : Count} (h : old.align x = .ok align) :
    new.align y = .ok align := by
  induction hi : x.index using Nat.strongRecOn generalizing x y align with
  | _ i ih =>
      subst hi
      have hpart : ∀ {a : Below x} {b : Below y} {align : Count}, R a.type b.type →
          old.align a.type = .ok align → new.align b.type = .ok align :=
        fun {a _ _} hab ha => ih a.type.index a.older hab ha rfl
      rw [Store.align] at h ⊢
      obtain ⟨seen, hv, h⟩ := bind_eq_ok.mp h
      obtain ⟨seen', hv', hrel⟩ := hm.view hw' hr hv
      refine bind_eq_ok.mpr ⟨seen', hv', ?_⟩
      cases hrel with
      | builtin type =>
          rw [hm.target]
          exact orFail_eq_ok.mpr (orFail_eq_ok.mp h)
      | array extent hb =>
          cases hc : extent.isComplete with
          | true =>
              simp only [hc, if_true] at h ⊢
              exact hpart hb h
          | false => simp [hc] at h
      | bitfield bits offset hb => exact hpart hb h
      | pointer hb | leftRef hb | rightRef hb =>
          obtain ⟨size, hs, h⟩ := bind_eq_ok.mp h
          refine bind_eq_ok.mpr ⟨size, hm.pointerSize hw hb hs, ?_⟩
          rw [hm.target]
          exact h
      | memberPointer ho hb =>
          rw [hm.target]
          exact h
      | function conv hret hp | memberFunction conv ho hret hp => cases h
      | tuple hp =>
          refine foldlM_eq_ok ?_ hp.types h
          intro most a b most' hab ha
          obtain ⟨align, ha, hmost⟩ := bind_eq_ok.mp ha
          exact bind_eq_ok.mpr
            ⟨align, mapError_eq_ok.mpr (hpart hab (mapError_eq_ok.mp ha)), hmost⟩
      | classType isStruct hn =>
          obtain ⟨body, hb, h⟩ := bind_eq_ok.mp h
          obtain ⟨body', hb', _, halign⟩ := hm.classes x y hr body hb
          refine bind_eq_ok.mpr ⟨body', hb', ?_⟩
          rw [halign]
          exact h
      | enumType hn =>
          obtain ⟨builtin, he, h⟩ := bind_eq_ok.mp h
          refine bind_eq_ok.mpr ⟨builtin, hm.enums x y hr builtin he, ?_⟩
          rw [hm.target]
          exact orFail_eq_ok.mpr (orFail_eq_ok.mp h)

/-- Related types have one size. -/
theorem size {x y : TypeId} (hr : R x y) {size : Count} (h : old.size x = .ok size) :
    new.size y = .ok size := by
  induction hi : x.index using Nat.strongRecOn generalizing x y size with
  | _ i ih =>
      subst hi
      have hpart : ∀ {a : Below x} {b : Below y} {size : Count}, R a.type b.type →
          old.size a.type = .ok size → new.size b.type = .ok size :=
        fun {a _ _} hab ha => ih a.type.index a.older hab ha rfl
      rw [Store.size] at h ⊢
      obtain ⟨seen, hv, h⟩ := bind_eq_ok.mp h
      obtain ⟨seen', hv', hrel⟩ := hm.view hw' hr hv
      refine bind_eq_ok.mpr ⟨seen', hv', ?_⟩
      cases hrel with
      | builtin type =>
          rw [hm.target]
          exact orFail_eq_ok.mpr (orFail_eq_ok.mp h)
      | array extent hb =>
          cases extent with
          | fixed count =>
              obtain ⟨part, hs, h⟩ := bind_eq_ok.mp h
              exact bind_eq_ok.mpr ⟨part, hpart hb hs, orFail_eq_ok.mpr (orFail_eq_ok.mp h)⟩
          | _ => cases h
      | bitfield bits offset hb =>
          obtain ⟨unit, hs, h⟩ := bind_eq_ok.mp h
          refine bind_eq_ok.mpr ⟨unit, hpart hb hs, ?_⟩
          rw [hm.target]
          cases hz : decide (unit = 0) with
          | true =>
              simp only [decide_eq_true_eq] at hz
              simp only [hz, if_true] at h ⊢
              exact h
          | false =>
              simp only [decide_eq_false_iff_not] at hz
              simp only [hz, if_false] at h ⊢
              exact orFail_eq_ok.mpr (orFail_eq_ok.mp h)
      | pointer hb | leftRef hb | rightRef hb => exact hm.pointerSize hw hb h
      | memberPointer ho hb =>
          rw [hm.target]
          exact h
      | function conv hret hp | memberFunction conv ho hret hp => cases h
      | tuple hp =>
          obtain ⟨total, hf, h⟩ := bind_eq_ok.mp h
          refine bind_eq_ok.mpr ⟨total, foldlM_eq_ok ?_ hp.types hf, ?_⟩
          · intro total a b total' hab ha
            obtain ⟨size, ha, htotal⟩ := bind_eq_ok.mp ha
            exact bind_eq_ok.mpr ⟨size, mapError_eq_ok.mpr (hpart hab (mapError_eq_ok.mp ha)),
              orFail_eq_ok.mpr (orFail_eq_ok.mp htotal)⟩
          · rw [hm.target]
            exact orFail_eq_ok.mpr (orFail_eq_ok.mp h)
      | classType isStruct hn =>
          obtain ⟨body, hb, h⟩ := bind_eq_ok.mp h
          obtain ⟨body', hb', hsize, _⟩ := hm.classes x y hr body hb
          refine bind_eq_ok.mpr ⟨body', hb', ?_⟩
          rw [hsize]
          exact h
      | enumType hn =>
          obtain ⟨builtin, he, h⟩ := bind_eq_ok.mp h
          refine bind_eq_ok.mpr ⟨builtin, hm.enums x y hr builtin he, ?_⟩
          rw [hm.target]
          exact orFail_eq_ok.mpr (orFail_eq_ok.mp h)

/-- Related types have one size that is left to run time. -/
theorem deferredSize {x y : TypeId} (hr : R x y) {size : SizeExpr}
    (h : old.deferredSize x = .ok size) : new.deferredSize y = .ok size := by
  induction hi : x.index using Nat.strongRecOn generalizing x y size with
  | _ i ih =>
      subst hi
      have hpart : ∀ {a : Below x} {b : Below y} {size : SizeExpr}, R a.type b.type →
          old.deferredSize a.type = .ok size → new.deferredSize b.type = .ok size :=
        fun {a _ _} hab ha => ih a.type.index a.older hab ha rfl
      rw [Store.deferredSize] at h ⊢
      obtain ⟨seen, hv, h⟩ := bind_eq_ok.mp h
      obtain ⟨seen', hv', hrel⟩ := hm.view hw' hr hv
      refine bind_eq_ok.mpr ⟨seen', hv', ?_⟩
      cases hrel with
      | array extent hb =>
          cases extent with
          | incomplete | unspecified => cases h
          | _ =>
              obtain ⟨part, hs, h⟩ := bind_eq_ok.mp h
              exact bind_eq_ok.mpr ⟨part, hpart hb hs, orFail_eq_ok.mpr (orFail_eq_ok.mp h)⟩
      | _ =>
          obtain ⟨bytes, hs, h⟩ := bind_eq_ok.mp h
          exact bind_eq_ok.mpr ⟨bytes, hm.size hw hw' hr hs, h⟩

omit hw hw' in
/-- What is a class is related to classes only. -/
theorem isClass (hw : old.WellFormed) {x y owner : TypeId} (hr : R x y)
    (h : old.classOwner x = .ok owner) : ∃ owner', new.classOwner y = .ok owner' := by
  obtain ⟨⟨form, qual⟩, hn, hk, _⟩ := classOwner_eq_ok.mp h
  obtain ⟨wanted, hs⟩ := hw.spells hn
  obtain ⟨wanted', own', ⟨shape, hn', hs'⟩, hrel, _⟩ := hm.parts x y hr wanted qual hs
  obtain ⟨form', hn'', hs⟩ := hs
  obtain ⟨rfl, _⟩ := Node.mk.inj (Option.some.inj (hn.symm.trans hn''))
  refine ⟨_, classOwner_eq_ok.mpr ⟨_, hn', ?_, rfl⟩⟩
  rwa [(spelling_eq_ok.mp hs').kind_eq, ← hrel.kind_eq, ← (spelling_eq_ok.mp hs).kind_eq]

/-- Classes with related bases and data members are laid out alike. -/
theorem classLayout {draft draft' : ClassDraft}
    (hb : List.Forall₂ (fun a b => R a.type b.type) draft.bases draft'.bases)
    (hd : List.Forall₂ (fun a b => R a.type b.type ∧ a.offset = b.offset) draft.data draft'.data)
    {layout : Count × Count} (h : old.classLayout draft = .ok layout) :
    new.classLayout draft' = .ok layout := by
  obtain ⟨reach, hreach, h⟩ := bind_eq_ok.mp h
  obtain ⟨bases, hbases, hdata⟩ := bind_eq_ok.mp hreach
  refine bind_eq_ok.mpr ⟨reach, bind_eq_ok.mpr ⟨bases, ?_, ?_⟩, ?_⟩
  · refine foldlM_eq_ok ?_ hb hbases
    intro reach a b reach' hab ha
    obtain ⟨owner, ho, ha⟩ := bind_eq_ok.mp ha
    obtain ⟨size, hs, ha⟩ := bind_eq_ok.mp ha
    obtain ⟨align, hl, ha⟩ := bind_eq_ok.mp ha
    obtain ⟨owner', ho'⟩ := hm.isClass hw hab ho
    exact bind_eq_ok.mpr ⟨owner', ho', bind_eq_ok.mpr ⟨size, hm.size hw hw' hab hs,
      bind_eq_ok.mpr ⟨align, hm.align hw hw' hab hl, ha⟩⟩⟩
  · refine foldlM_eq_ok ?_ hd hdata
    rintro reach a b reach' ⟨hab, hoffset⟩ ha
    obtain ⟨size, hs, ha⟩ := bind_eq_ok.mp ha
    obtain ⟨stop, hstop, ha⟩ := bind_eq_ok.mp ha
    obtain ⟨align, hl, ha⟩ := bind_eq_ok.mp ha
    refine bind_eq_ok.mpr ⟨size, hm.size hw hw' hab hs, bind_eq_ok.mpr ⟨stop, ?_,
      bind_eq_ok.mpr ⟨align, hm.align hw hw' hab hl, ha⟩⟩⟩
    rw [← hoffset]
    exact orFail_eq_ok.mpr (orFail_eq_ok.mp hstop)
  · obtain ⟨size, hs, h⟩ := bind_eq_ok.mp h
    refine bind_eq_ok.mpr ⟨size, ?_, h⟩
    rw [hm.target]
    exact orFail_eq_ok.mpr (orFail_eq_ok.mp hs)

end Mirrors

/-! ### Bodies fixed earlier -/

section Bodies

variable {store : Store}

theorem classBody?_eq_some {type : TypeId} {body : ClassBody} :
    store.classBody? type = some body ↔ store.definition? type = some (.ofClass body) := by
  unfold classBody?
  split
  next h => simp [h]
  next h => simpa using fun hd => h body hd

theorem enumBody?_eq_some {type : TypeId} {body : EnumBody} :
    store.enumBody? type = some body ↔ store.definition? type = some (.ofEnum body) := by
  unfold enumBody?
  split
  next h => simp [h]
  next h => simpa using fun hd => h body hd

theorem mem_of_definition? {type : TypeId} {definition : Definition}
    (h : store.definition? type = some definition) : (type, definition) ∈ store.definitions :=
  mem_of_lookup h

theorem definition?_eq_none {type : TypeId} :
    store.definition? type = none ↔ type ∉ store.definitions.map Prod.fst :=
  lookup_eq_none

theorem classBody_eq_ok {type : TypeId} {body : ClassBody} :
    store.classBody type = .ok body ↔ ∃ owner, store.classOwner type = .ok owner ∧
      store.definition? owner = some (.ofClass body) := by
  unfold Store.classBody
  simp only [bind_eq_ok, orFail_eq_ok, classBody?_eq_some]

theorem enumBody_eq_ok {type : TypeId} {body : EnumBody} :
    store.enumBody type = .ok body ↔ ∃ owner, store.enumOwner type = .ok owner ∧
      store.definition? owner = some (.ofEnum body) := by
  unfold Store.enumBody
  simp only [bind_eq_ok, orFail_eq_ok, enumBody?_eq_some]

theorem builtinOf?_eq_ok {type : TypeId} {builtin : Option Builtin} :
    store.builtinOf? type = .ok builtin ↔
      ∃ node, store.node? type = some node ∧ node.shape.builtin? = builtin := by
  unfold builtinOf?
  simp only [bind_eq_ok, shape_eq_ok, pure_eq_ok]
  constructor
  · rintro ⟨_, ⟨node, hn, rfl⟩, hb⟩
    exact ⟨node, hn, hb⟩
  · rintro ⟨node, hn, hb⟩
    exact ⟨_, ⟨node, hn, rfl⟩, hb⟩

theorem enumStorage_eq_ok {type : TypeId} {builtin : Builtin} :
    store.enumStorage type = .ok builtin ↔ ∃ body, store.enumBody type = .ok body ∧
      store.builtinOf? body.base = .ok (some builtin) := by
  unfold enumStorage
  simp only [bind_eq_ok, orFail_eq_ok]
  constructor
  · rintro ⟨body, hb, _, h, rfl⟩
    exact ⟨body, hb, h⟩
  · rintro ⟨body, hb, h⟩
    exact ⟨body, hb, _, h, rfl⟩

end Bodies

theorem Extends.idOf (h : old.Extends new) {node : Node} (hn : node ∈ old.nodes) :
    new.idOf node = old.idOf node := by
  rw [Store.idOf, Store.idOf, h.nodes.indexOf hn]

theorem Extends.classOwner (h : old.Extends new) (hw : old.WellFormed) {type owner : TypeId}
    (ho : old.classOwner type = .ok owner) : new.classOwner type = .ok owner := by
  obtain ⟨node, hn, hk, rfl⟩ := classOwner_eq_ok.mp ho
  exact classOwner_eq_ok.mpr ⟨node, h.node? hn, hk, h.idOf (hw.plain type node hn)⟩

theorem Extends.enumOwner (h : old.Extends new) (hw : old.WellFormed) {type owner : TypeId}
    (ho : old.enumOwner type = .ok owner) : new.enumOwner type = .ok owner := by
  obtain ⟨node, hn, hk, rfl⟩ := enumOwner_eq_ok.mp ho
  exact enumOwner_eq_ok.mpr ⟨node, h.node? hn, hk, h.idOf (hw.plain type node hn)⟩

/-- A body is fixed for good. -/
theorem Extends.definition? (h : old.Extends new) {type : TypeId} {definition : Definition}
    (hd : old.definition? type = some definition) : new.definition? type = some definition := by
  obtain ⟨added, hadded⟩ := h.definitions
  rw [Store.definition?] at hd ⊢
  rw [← hadded, List.lookup_append, hd]
  rfl

/-- A store that only grew lays out as before what it could lay out. -/
theorem Extends.mirrors (h : old.Extends new) (hw : old.WellFormed)
    (ht : new.target = old.target) : Mirrors (· = ·) old new where
  target := ht
  parts := by
    rintro x _ rfl wanted own hs
    exact ⟨wanted, own, h.spells hs,
      .refl (fun _ => rfl) (fun _ => ⟨List.forall₂_refl _, rfl⟩) (fun _ => trivial) wanted, rfl⟩
  classes := by
    rintro x _ rfl body hb
    obtain ⟨owner, ho, hd⟩ := classBody_eq_ok.mp hb
    exact ⟨body, classBody_eq_ok.mpr ⟨owner, h.classOwner hw ho, h.definition? hd⟩, rfl, rfl⟩
  enums := by
    rintro x _ rfl builtin he
    obtain ⟨body, hb, hbase⟩ := enumStorage_eq_ok.mp he
    obtain ⟨owner, ho, hd⟩ := enumBody_eq_ok.mp hb
    obtain ⟨node, hn, hbuiltin⟩ := builtinOf?_eq_ok.mp hbase
    exact enumStorage_eq_ok.mpr ⟨body, enumBody_eq_ok.mpr ⟨owner, h.enumOwner hw ho,
      h.definition? hd⟩, builtinOf?_eq_ok.mpr ⟨node, h.node? hn, hbuiltin⟩⟩

/-- A class that could be laid out is laid out in the same way later. -/
theorem Extends.classLayout (h : old.Extends new) (hw : old.WellFormed) (hw' : new.WellFormed)
    (ht : new.target = old.target) {draft : ClassDraft} {layout : Count × Count}
    (hl : old.classLayout draft = .ok layout) : new.classLayout draft = .ok layout :=
  (h.mirrors hw ht).classLayout hw hw' (List.forall₂_same.mpr fun _ _ => rfl)
    (List.forall₂_same.mpr fun _ _ => ⟨rfl, rfl⟩) hl

end Store

end TypeGraph

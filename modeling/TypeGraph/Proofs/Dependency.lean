import TypeGraph.Proofs.Descent

/-!
What a class holds values of is finished before the class is. Main statement: the order in which
classes and enums were completed has no repetitions, and every class stands after whatever it
contains by value, so that none contains itself (`Store.Reachable.completed_in_order`).
-/

namespace TypeGraph

/-- The types that an object of the class holds values of: its bases and data members. -/
def ClassBody.values (body : ClassBody) : List TypeId :=
  body.bases.map BaseClass.type ++ body.data.map Member.type

namespace Store

variable {store old new : Store} {type part owner : TypeId}

/-- The classes and enums with a body, in the order in which they were completed. -/
def completionOrder (store : Store) : List TypeId := store.definitions.map Prod.fst

/-- A value of a type contains one of a class or enum: it is one, or an element of an array, the
unit of a bit-field or a component of a tuple contains one. How many elements an array has is left
open. -/
inductive Contains (store : Store) : TypeId → TypeId → Prop where
  | ofClass {type owner : TypeId} (class_ : store.classOwner type = .ok owner) :
      Contains store type owner
  | ofEnum {type owner : TypeId} (enum : store.enumOwner type = .ok owner) :
      Contains store type owner
  | element {type base owner : TypeId} {extent : Extent} {own : Qual PathId}
      (node : store.node? type = some ⟨.array base extent, own⟩)
      (inside : Contains store base owner) : Contains store type owner
  | unit {type base owner : TypeId} {bits offset : UInt32} {own : Qual PathId}
      (node : store.node? type = some ⟨.bitfield base bits offset, own⟩)
      (inside : Contains store base owner) : Contains store type owner
  | component {type part owner : TypeId} {set : ParamSetId} {params : ParamSet} {own : Qual PathId}
      (node : store.node? type = some ⟨.tuple set, own⟩)
      (params_eq : store.paramSet set = .ok params) (mem : part ∈ params.types)
      (inside : Contains store part owner) : Contains store type owner

/-- A finished class holds a value of a class or enum by a base or data member. -/
def Needs (store : Store) (whole owner : TypeId) : Prop :=
  ∃ body, store.classBody? whole = some body ∧ ∃ part ∈ body.values, store.Contains part owner

/-! ### What a complete type contains is complete -/

theorem mem_completionOrder {definition : Definition}
    (h : store.definition? type = some definition) : type ∈ store.completionOrder :=
  List.mem_map.mpr ⟨_, mem_of_definition? h, rfl⟩

theorem Contains.complete (hw : store.WellFormed) (h : store.Contains type owner)
    (hc : store.isComplete type = .ok true) :
    store.isComplete owner = .ok true ∧ owner ∈ store.completionOrder := by
  induction h with
  | @ofClass type owner ho =>
      obtain ⟨⟨shape, own⟩, hn, hk, _⟩ := classOwner_eq_ok.mp ho
      obtain ⟨name, isStruct, rfl⟩ := shape_of_isClass hk
      obtain ⟨body, hb⟩ := (complete_class (view_class hw hn)).mp hc
      obtain ⟨_, ho', hd⟩ := classBody_eq_ok.mp hb
      cases ho.symm.trans ho'
      obtain ⟨name, isStruct, hself⟩ := hw.classOwner ho
      refine ⟨(complete_class (view_class hw hself)).mpr ⟨body, ?_⟩, mem_completionOrder hd⟩
      exact classBody_eq_ok.mpr ⟨owner, classOwner_of_node? hself, hd⟩
  | @ofEnum type owner ho =>
      obtain ⟨⟨shape, own⟩, hn, hk, _⟩ := enumOwner_eq_ok.mp ho
      obtain ⟨name, rfl⟩ := shape_of_kind_enum hk
      obtain ⟨body, hb⟩ := (complete_enum (view_enum hw hn)).mp hc
      obtain ⟨_, ho', hd⟩ := enumBody_eq_ok.mp hb
      cases ho.symm.trans ho'
      obtain ⟨name, hself⟩ := hw.enumOwner ho
      refine ⟨(complete_enum (view_enum hw hself)).mpr ⟨body, ?_⟩, mem_completionOrder hd⟩
      exact enumBody_eq_ok.mpr ⟨owner, enumOwner_of_node? hself, hd⟩
  | @element type base owner extent own hn _ ih =>
      rw [Store.isComplete] at hc
      obtain ⟨seen, hv, hc⟩ := bind_eq_ok.mp hc
      cases rel_of_view hn hv with
      | array _ hbase =>
          subst hbase
          cases he : extent.isComplete with
          | true => exact ih (by simpa only [he, if_true] using hc)
          | false => simp [he] at hc
  | unit hn _ ih =>
      rw [Store.isComplete] at hc
      obtain ⟨seen, hv, hc⟩ := bind_eq_ok.mp hc
      cases rel_of_view hn hv with
      | bitfield bits offset hbase =>
          subst hbase
          exact ih hc
  | component hn hp hm _ ih =>
      obtain ⟨seen, hv⟩ := hw.view hn
      cases rel_of_view hn hv with
      | tuple hparts =>
          obtain ⟨params, hp', hrel⟩ := hparts
          cases hp.symm.trans hp'
          obtain ⟨below, hbelow, rfl⟩ := forall₂_exists_right hrel.types hm
          rw [isComplete_tuple hv, allM_eq_ok_true] at hc
          exact ih (hc below hbelow)

theorem Contains.of_extends (hext : old.Extends new) (hw : old.WellFormed)
    (h : new.Contains type owner) (hh : old.Holds type) : old.Contains type owner := by
  induction h with
  | ofClass ho =>
      obtain ⟨node, hn, hk, rfl⟩ := classOwner_eq_ok.mp ho
      have hold := hh.node?_of_extends hext hn
      rw [hext.idOf (hw.plain _ _ hold)]
      exact .ofClass (classOwner_eq_ok.mpr ⟨node, hold, hk, rfl⟩)
  | ofEnum ho =>
      obtain ⟨node, hn, hk, rfl⟩ := enumOwner_eq_ok.mp ho
      have hold := hh.node?_of_extends hext hn
      rw [hext.idOf (hw.plain _ _ hold)]
      exact .ofEnum (enumOwner_eq_ok.mpr ⟨node, hold, hk, rfl⟩)
  | element hn _ ih =>
      have hold := hh.node?_of_extends hext hn
      exact .element hold (ih (node?_of_lt ((hw.fits hold).base _ rfl)))
  | unit hn _ ih =>
      have hold := hh.node?_of_extends hext hn
      exact .unit hold (ih (node?_of_lt ((hw.fits hold).base _ rfl)))
  | component hn hp' hm _ ih =>
      have hold := hh.node?_of_extends hext hn
      obtain ⟨params, hp, hlt, _⟩ := (hw.fits hold).params _ rfl
      cases (hext.paramSet hp).symm.trans hp'
      exact .component hold hp hm (ih (node?_of_lt (hlt _ hm)))

/-! ### What a class rests on -/

theorem sized_of_classLayout {draft : ClassDraft} {layout : Count × Count}
    (h : store.classLayout draft = .ok layout) :
    (∀ base ∈ draft.bases, (∃ owner, store.classOwner base.type = .ok owner) ∧
      ∃ size, store.size base.type = .ok size) ∧
    ∀ member ∈ draft.data, ∃ size, store.size member.type = .ok size := by
  obtain ⟨reach, hreach, _⟩ := bind_eq_ok.mp h
  obtain ⟨start, hbases, hdata⟩ := bind_eq_ok.mp hreach
  constructor
  · refine forall_of_foldlM_eq_ok (fun reach base _ reach' hstep => ?_) hbases
    obtain ⟨owner, ho, hstep⟩ := bind_eq_ok.mp hstep
    obtain ⟨size, hs, _⟩ := bind_eq_ok.mp hstep
    exact ⟨⟨owner, ho⟩, size, hs⟩
  · refine forall_of_foldlM_eq_ok (fun reach member _ reach' hstep => ?_) hdata
    obtain ⟨size, hs, _⟩ := bind_eq_ok.mp hstep
    exact ⟨size, hs⟩

/-- A body rests on classes and enums that were completed before it: the bases of a class are
classes, and whatever its bases and data members contain is complete. An enum rests on none. -/
def RestsOn (store : Store) (before : List TypeId) : Definition → Prop
  | .ofClass body =>
      (∀ base ∈ body.bases, ∃ owner, store.classOwner base.type = .ok owner) ∧
      ∀ part ∈ body.values, store.Holds part ∧ ∀ owner, store.Contains part owner →
        store.isComplete owner = .ok true ∧ owner ∈ before
  | .ofEnum _ => True

theorem RestsOn.mono (hext : old.Extends new) (hw : old.WellFormed) {before : List TypeId}
    {definition : Definition} (h : old.RestsOn before definition) :
    new.RestsOn before definition := by
  cases definition with
  | ofEnum body => exact trivial
  | ofClass body =>
      obtain ⟨hbases, hvalues⟩ := h
      constructor
      · intro base hm
        obtain ⟨owner, ho⟩ := hbases base hm
        exact ⟨owner, hext.classOwner hw ho⟩
      · intro part hm
        obtain ⟨hh, hinside⟩ := hvalues part hm
        refine ⟨hh.mono hext, fun owner hc => ?_⟩
        obtain ⟨hcomplete, hbefore⟩ := hinside owner (hc.of_extends hext hw hh)
        exact ⟨hext.isComplete hw hcomplete, hbefore⟩

theorem Accepts.restsOn (hw : store.WellFormed) {body : OpenBody} {definition : Definition}
    (h : store.Accepts body definition) : store.RestsOn store.completionOrder definition := by
  cases h with
  | ofEnum => exact trivial
  | @ofClass draft body name isStruct own node fresh bases data layout =>
      obtain ⟨hbases, hdata⟩ := sized_of_classLayout layout
      have hsized : ∀ part ∈ body.values, ∃ size, store.size part = .ok size := by
        rw [ClassBody.values, bases, data]
        intro part hm
        rcases List.mem_append.mp hm with hm | hm
        · obtain ⟨base, hbase, rfl⟩ := List.mem_map.mp hm
          exact (hbases base hbase).2
        · obtain ⟨member, hmember, rfl⟩ := List.mem_map.mp hm
          exact hdata member hmember
      refine ⟨bases ▸ fun base hm => (hbases base hm).1, fun part hm => ?_⟩
      obtain ⟨size, hs⟩ := hsized part hm
      have hc := complete_of_size hs
      rw [Store.size] at hs
      obtain ⟨seen, hv, _⟩ := bind_eq_ok.mp hs
      exact ⟨holds_of_view hv, fun owner hinside => hinside.complete hw hc⟩

/-! ### The order of completion -/

/-- Each of these bodies is the first of its class or enum and rests on those before it. -/
inductive Ordered (store : Store) : List (TypeId × Definition) → Prop where
  | nil : Ordered store []
  | snoc {before : List (TypeId × Definition)} {type : TypeId} {definition : Definition}
      (earlier : Ordered store before) (fresh : type ∉ before.map Prod.fst)
      (rests : store.RestsOn (before.map Prod.fst) definition) :
      Ordered store (before ++ [(type, definition)])

namespace Ordered

variable {bodies : List (TypeId × Definition)}

theorem mono (hext : old.Extends new) (hw : old.WellFormed) (h : old.Ordered bodies) :
    new.Ordered bodies := by
  induction h with
  | nil => exact .nil
  | snoc _ fresh rests ih => exact .snoc ih fresh (rests.mono hext hw)

theorem nodup (h : store.Ordered bodies) : (bodies.map Prod.fst).Nodup := by
  induction h with
  | nil => exact .nil
  | snoc _ fresh _ ih =>
      rw [List.map_append, List.map_singleton, ← List.concat_eq_append]
      exact List.Nodup.concat fresh ih

theorem rests (h : store.Ordered bodies) {definition : Definition}
    (hm : (type, definition) ∈ bodies) :
    ∃ before after, bodies.map Prod.fst = before ++ type :: after ∧ type ∉ before ∧
      store.RestsOn before definition := by
  induction h with
  | nil => cases hm
  | @snoc front last body _ fresh rests ih =>
      rw [List.map_append, List.map_singleton]
      rcases List.mem_append.mp hm with hm | hm
      · obtain ⟨before, after, heq, hnot, hrests⟩ := ih hm
        exact ⟨before, after ++ [last], by rw [heq]; simp, hnot, hrests⟩
      · cases List.mem_singleton.mp hm
        exact ⟨front.map Prod.fst, [], rfl, fresh, rests⟩

end Ordered

/-- In every store that requests lead to, a body was fixed after whatever it rests on. -/
theorem invariant_ordered : Invariant fun store =>
    (∀ entry ∈ store.definitions, store.Fitting entry) ∧ store.Ordered store.definitions where
  new target := ⟨invariant_fitting.new target, .nil⟩
  grows hw hw' hext hd h := by
    refine ⟨invariant_fitting.grows hw hw' hext hd h.1, ?_⟩
    rw [hd]
    exact h.2.mono hext hw
  fixes hw hw' hext ha h := by
    refine ⟨invariant_fitting.fixes hw hw' hext ha h.1, ?_⟩
    exact .snoc (h.2.mono hext hw) (definition?_eq_none.mp (ha.definition? h.1))
      ((ha.restsOn hw).mono hext hw)

theorem Reachable.ordered (h : store.Reachable) : store.Ordered store.definitions :=
  (invariant_ordered.reachable h).2

theorem mem_completionOrder_iff :
    type ∈ store.completionOrder ↔
      (store.classBody? type).isSome ∨ (store.enumBody? type).isSome := by
  simp only [Option.isSome_iff_exists, classBody?_eq_some, enumBody?_eq_some]
  constructor
  · intro hm
    cases hd : store.definition? type with
    | none => exact absurd hm (definition?_eq_none.mp hd)
    | some definition =>
        cases definition with
        | ofClass body => exact Or.inl ⟨body, rfl⟩
        | ofEnum body => exact Or.inr ⟨body, rfl⟩
  · rintro (⟨body, hd⟩ | ⟨body, hd⟩)
    · exact mem_completionOrder hd
    · exact mem_completionOrder hd

/-- One class or enum was completed before another one. -/
def CompletedBefore (store : Store) (first last : TypeId) : Prop :=
  first ∈ store.completionOrder ∧
    store.completionOrder.idxOf first < store.completionOrder.idxOf last

instance : Trans store.CompletedBefore store.CompletedBefore store.CompletedBefore where
  trans hab hbc := ⟨hab.1, Nat.lt_trans hab.2 hbc.2⟩

theorem idxOf_lt_idxOf {α : Type} [BEq α] [LawfulBEq α] {list before after : List α} {a b : α}
    (heq : list = before ++ b :: after) (ha : a ∈ before) (hb : b ∉ before) :
    list.idxOf a < list.idxOf b := by
  subst heq
  rw [List.idxOf_append_of_mem ha, List.idxOf_append_of_notMem hb, List.idxOf_cons_self]
  exact List.idxOf_lt_length_of_mem ha

theorem Ordered.bases (h : store.Ordered store.definitions) {body : ClassBody}
    (hb : store.classBody? type = some body) {base : BaseClass} (hm : base ∈ body.bases) :
    ∃ owner, store.classOwner base.type = .ok owner ∧ store.Needs type owner := by
  obtain ⟨_, _, _, _, hbases, _⟩ := h.rests (mem_of_definition? (classBody?_eq_some.mp hb))
  obtain ⟨owner, ho⟩ := hbases base hm
  have hvalue : base.type ∈ body.values :=
    List.mem_append_left _ (List.mem_map_of_mem hm)
  exact ⟨owner, ho, body, hb, base.type, hvalue, .ofClass ho⟩

theorem Ordered.needed (h : store.Ordered store.definitions) {whole : TypeId}
    (hneeds : store.Needs whole owner) :
    store.isComplete owner = .ok true ∧ store.CompletedBefore owner whole := by
  obtain ⟨body, hb, part, hm, hinside⟩ := hneeds
  obtain ⟨before, after, heq, hnot, _, hvalues⟩ :=
    h.rests (mem_of_definition? (classBody?_eq_some.mp hb))
  obtain ⟨hcomplete, hbefore⟩ := (hvalues part hm).2 owner hinside
  refine ⟨hcomplete, ?_, idxOf_lt_idxOf heq hbefore hnot⟩
  rw [Store.completionOrder, heq]
  exact List.mem_append_left _ hbefore

/-- However far down, what a class needs was completed before it. -/
theorem Ordered.completedBefore (h : store.Ordered store.definitions) {whole : TypeId}
    (hneeds : Relation.TransGen store.Needs whole owner) : store.CompletedBefore owner whole := by
  induction hneeds with
  | single hneed => exact (h.needed hneed).2
  | tail _ hneed ih => exact Trans.trans (h.needed hneed).2 ih

/-- The order in which classes and enums were completed has no repetitions and lists those with a
body. What a class needs, its bases among it, is complete and stands before the class, so that no
class needs itself, however far down. -/
theorem Reachable.completed_in_order (h : store.Reachable) :
    store.completionOrder.Nodup ∧
    (∀ type, type ∈ store.completionOrder ↔
      (store.classBody? type).isSome ∨ (store.enumBody? type).isSome) ∧
    (∀ whole owner, store.Needs whole owner →
      store.isComplete owner = .ok true ∧ store.CompletedBefore owner whole) ∧
    (∀ whole body, store.classBody? whole = some body → ∀ base ∈ body.bases,
      ∃ owner, store.classOwner base.type = .ok owner ∧ store.Needs whole owner) ∧
    ∀ type, ¬ Relation.TransGen store.Needs type type :=
  ⟨h.ordered.nodup, fun _ => mem_completionOrder_iff, fun _ _ hneeds => h.ordered.needed hneeds,
    fun _ _ hb _ hm => h.ordered.bases hb hm,
    fun _ hself => Nat.lt_irrefl _ (h.ordered.completedBefore hself).2⟩

/-- A struct that holds an array of an enum needs the enum, even if the array has no elements, and
the struct above it needs both. -/
theorem Reachable.completed_in_order_empty :
    let enum : TypeId := ⟨Builtin.all.length⟩
    let inner : TypeId := ⟨Builtin.all.length + 1⟩
    let outer : TypeId := ⟨Builtin.all.length + 2⟩
    let array : TypeId := ⟨Builtin.all.length + 3⟩
    let entered : List Request := [.path ["e"], .path ["f"], .path ["g"], .enter (.enumType ⟨1⟩),
      .enter (.classType ⟨2⟩ true), .enter (.classType ⟨3⟩ true), .enter (.array enum (.fixed 0))]
    let innerDraft := (ClassDraft.new inner).addData ⟨"none", array, 0, .isPublic, false⟩
    let outerDraft := (ClassDraft.new outer).addBase ⟨inner, .isPublic, false⟩
    let completed : List Request :=
      [.completeClass innerDraft, .completeEnum (.new enum) (.builtin (.bool .hard)),
        .completeClass outerDraft, .completeClass innerDraft, .completeClass outerDraft]
    let store := (Store.new .wide).afterAll (entered ++ completed)
    store.Reachable ∧ store.completionOrder = [enum, inner, outer] ∧
      store.Needs outer inner ∧ store.Needs inner enum ∧
      store.CompletedBefore inner outer ∧ store.CompletedBefore enum inner ∧
      ¬ Relation.TransGen store.Needs outer outer := by
  intro enum inner outer array entered innerDraft outerDraft completed store
  have hr : store.Reachable := (reachable_new .wide).afterAll (by
    simp [entered, completed, Request.Countable, TypeRequest.Countable])
  have hinner : store.classBody? inner = some
      ⟨[], [⟨⟨3⟩, array, 0, .isPublic, false⟩], [], 4, 1⟩ := by decide +kernel
  have houter : store.classBody? outer = some ⟨[⟨inner, .isPublic, false⟩], [], [], 4, 1⟩ := by
    decide +kernel
  have hneed : store.Needs outer inner :=
    ⟨_, houter, inner, by simp [ClassBody.values], .ofClass (by decide +kernel)⟩
  have hneed' : store.Needs inner enum :=
    ⟨_, hinner, array, by simp [ClassBody.values],
      .element (show store.node? array = some (.plain (.array enum (.fixed 0))) by decide +kernel)
        (.ofEnum (by decide +kernel))⟩
  obtain ⟨_, _, hneeded, _, hloop⟩ := hr.completed_in_order
  exact ⟨hr, by decide +kernel, hneed, hneed', (hneeded _ _ hneed).2, (hneeded _ _ hneed').2,
    hloop outer⟩

end Store

end TypeGraph

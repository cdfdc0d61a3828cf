import TypeGraph.Proofs.Asking
import TypeGraph.Proofs.Dependency
import TypeGraph.Proofs.Editing

/-!
Runs of arenas and runs of stores. Main statements: the same requests lead from a new arena and from
a new store to the same types, names and bodies (`Arena.Runs.represents`), which are then found
alike (`Arena.Runs.answersAs`), every store that requests lead to is represented by an arena that
requests lead to (`Store.Reachable.represented`), and along every run the links, lists and maps of
an arena say the same (`Arena.Runs.coherent`).
-/

namespace TypeGraph

/-! ### New arenas -/

/-- What is entered one after another, and never twice, stands in a row. -/
theorem Table.entries_foldl_insert {α : Type} [DecidableEq α] {table : Table α} {as : List α}
    (h : (table.entries ++ as).Nodup) : (as.foldl insert table).entries = table.entries ++ as := by
  induction as generalizing table with
  | nil => rw [List.foldl_nil, List.append_nil]
  | cons a as ih =>
      have hnew : a ∉ table := fun hm =>
        (List.nodup_append.mp h).2.2 a hm a List.mem_cons_self rfl
      have hinsert := entries_insert_of_notMem hnew
      rw [List.foldl_cons, ih, hinsert, List.append_assoc]
      · rfl
      · rwa [hinsert, List.append_assoc]

/-- The store without any type. -/
def Store.blank (target : Target) : Store where
  names := Names.empty
  target := target
  nodes := Table.empty
  paramSets := Table.empty
  definitions := []
  settled := []

namespace Build

/-- Enters builtin types without qualifiers. -/
def builtins (types : List Builtin) : Build PUnit :=
  types.forM fun type => do
    let _ ← plain (.builtin type)

theorem run_builtins (types : List Builtin) (store : Store) :
    builtins types store = .ok ⟨⟩ { store with
      nodes := (types.map fun type => .plain (.builtin type)).foldl Table.insert store.nodes } := by
  induction types generalizing store with
  | nil => rfl
  | cons type types ih => exact ih _

/-- Enters the builtin types in their order, and the empty parameter list. -/
def start : Build Unit := do
  builtins Builtin.all
  let _ ← enterParams Params.empty

theorem after_start (target : Target) : after start (Store.blank target) = Store.new target := by
  have hnodes : (Builtin.all.map fun type => Node.plain (.builtin type)).foldl Table.insert
      Table.empty = Store.builtinNodes := by
    have hnodup : (Table.empty.entries ++ Store.builtinNodes.entries).Nodup :=
      Store.builtinNodes.nodup
    have hentries := Table.entries_foldl_insert hnodup
    unfold Store.builtinNodes at hentries ⊢
    generalize List.foldl _ _ _ = table at hentries ⊢
    cases table
    cases hentries
    rfl
  unfold start
  rw [after, run_bind_of_ok (run_builtins _ _), Store.blank]
  dsimp only
  rw [hnodes]
  rfl

end Build

namespace Arena

theorem represents_blank (target : Target) : (blank target).Represents (Store.blank target) where
  names := Interner.represents_empty
  target := rfl
  size := rfl
  slots type slot hs := by simp [blank, slot?] at hs
  settled type hm := by cases hm
  byShape shape type := by simp [blank, Store.blank, Store.node?, Table.get?, Table.empty]
  byQual plain qual type := by simp [blank, Store.blank, Store.node?, Table.get?, Table.empty]
  paramSets := rfl
  classes _ := rfl
  enums _ := rfl
  completed := rfl
  once := .nil
  definitions := rfl
  bodies type definition hd := by cases hd

theorem represents_new (target : Target) : (new target).Represents (Store.new target) := by
  have hstart : Refines Represents start Build.start :=
    (Refines.forM (fun type => (Edit.refines_plain (.builtin type)).bind fun _ => .pure _) _).bind
      fun _ => (Edit.refines_enterParams _).bind fun _ => .pure _
  rw [← Build.after_start]
  exact (hstart.outcome_after (represents_blank target)).2

/-! ### Runs -/

/-- A request was made to an arena, and answered. Reading, and completing several bodies in turn,
come down to other requests. -/
inductive Step (arena : Arena) : (request : Request) → request.Answer → Arena → Prop where
  | intern (text : String) : arena.Step (.intern text)
      (outcome (Edit.naming (Naming.intern text)) arena)
      (after (Edit.naming (Naming.intern text)) arena)
  | extend (parent : PathId) (keyword : Keyword) : arena.Step (.extend parent keyword)
      (outcome (Edit.naming (Naming.extend parent keyword)) arena)
      (after (Edit.naming (Naming.extend parent keyword)) arena)
  | child (parent : PathId) (text : String) : arena.Step (.child parent text)
      (outcome (Edit.naming (Naming.child parent text)) arena)
      (after (Edit.naming (Naming.child parent text)) arena)
  | path (texts : List String) : arena.Step (.path texts)
      (outcome (Edit.naming (Naming.path texts)) arena)
      (after (Edit.naming (Naming.path texts)) arena)
  | retarget (target : Target) : arena.Step (.retarget target) () (arena.withTarget target)
  | params (types : List TypeId) (variadic : Bool) : arena.Step (.params types variadic)
      (outcome (Edit.params types variadic) arena) (after (Edit.params types variadic) arena)
  | enter (asked : TypeRequest) : arena.Step (.enter asked)
      (outcome (Edit.enter asked) arena) (after (Edit.enter asked) arena)
  | qualify (type : TypeId) (qual : Qual PathId) : arena.Step (.qualify type qual)
      (outcome (Edit.qualify type qual) arena) (after (Edit.qualify type qual) arena)
  | addQual (type : TypeId) (qual : Qual PathId) : arena.Step (.addQual type qual)
      (outcome (Edit.addQual type qual) arena) (after (Edit.addQual type qual) arena)
  | isComplete (type : TypeId) : arena.Step (.isComplete type)
      (outcome (Edit.isComplete type) arena) (after (Edit.isComplete type) arena)
  | completeClass (draft : ClassDraft) : arena.Step (.completeClass draft)
      (outcome (Edit.completeClass draft) arena) (after (Edit.completeClass draft) arena)
  | completeEnum (draft : EnumDraft) (base : TypeId) : arena.Step (.completeEnum draft base)
      (outcome (Edit.completeEnum draft base) arena) (after (Edit.completeEnum draft base) arena)

/-- Requests were made to an arena, one after another. -/
inductive Runs : Arena → List Request → Arena → Prop where
  | nil (arena : Arena) : Runs arena [] arena
  | cons {arena next last : Arena} {request : Request} {answer : request.Answer}
      {requests : List Request} (step : arena.Step request answer next)
      (rest : Runs next requests last) : Runs arena (request :: requests) last

variable {arena next last : Arena} {store : Store} {request : Request}
  {requests others : List Request}

theorem Runs.append (h : arena.Runs requests next) (hrest : next.Runs others last) :
    arena.Runs (requests ++ others) last := by
  induction h with
  | nil => exact hrest
  | cons step _ ih => exact .cons step (ih hrest)

/-- An arena answers a request as the store does, and is left as the store is. -/
theorem Represents.step (h : arena.Represents store) {answer : request.Answer}
    (hstep : arena.Step request answer next) :
    answer = request.answer store ∧ next.Represents (request.effect store) := by
  cases hstep with
  | intern text => exact (Edit.refines_intern text).outcome_after h
  | extend parent keyword => exact (Edit.refines_extend parent keyword).outcome_after h
  | child parent text => exact (Edit.refines_child parent text).outcome_after h
  | path texts => exact (Edit.refines_path texts).outcome_after h
  | retarget target => exact ⟨rfl, h.withTarget target⟩
  | params types variadic => exact (Edit.refines_params types variadic).outcome_after h
  | enter asked => exact (Edit.refines_enter asked).outcome_after h
  | qualify type qual => exact (Edit.refines_qualify type qual).outcome_after h
  | addQual type qual => exact (Edit.refines_addQual type qual).outcome_after h
  | isComplete type => exact (Edit.refines_isComplete type).outcome_after h
  | completeClass draft => exact (Edit.refines_completeClass draft).outcome_after h
  | completeEnum draft base => exact (Edit.refines_completeEnum draft base).outcome_after h

/-- The same requests lead an arena and the store to the same. -/
theorem Runs.represents (hruns : arena.Runs requests last) (h : arena.Represents store) :
    last.Represents (store.afterAll requests) := by
  induction hruns generalizing store with
  | nil => exact h
  | cons step _ ih => exact ih (h.step step).2

/-! ### What is asked of an arena -/

/-- Whatever is looked up in the registries of an arena, or read off its links and lists, is what
the store answers. -/
structure AnswersAs (arena : Arena) (store : Store) : Prop where
  text : arena.interner.text = store.names.text
  lookup? : arena.interner.lookup? = store.names.lookup?
  parent : arena.interner.parent = store.names.parent
  last : arena.interner.last = store.names.last
  segments : arena.interner.segments = store.names.segments
  strings : arena.interner.strings = store.names.strings
  shape : arena.shape = store.shape
  qual : arena.qual = store.qual
  unqualified : arena.unqualified = store.unqualified
  variants : arena.variants = store.variants
  paramSet : arena.paramSet = store.paramSet
  classBody : arena.classBody = store.classBody
  enumBody : arena.enumBody = store.enumBody
  openClass : arena.openClass = store.openClass
  openEnum : arena.openEnum = store.openEnum
  completed : arena.completed = store.completionOrder

theorem Represents.answersAs (h : arena.Represents store) : arena.AnswersAs store where
  text := funext h.names.text_eq
  lookup? := funext h.names.lookup?_eq
  parent := funext fun path => (h.names.parent_eq path).1
  last := funext fun path => (h.names.parent_eq path).2
  segments := funext h.names.segments_eq
  strings := funext h.names.strings_eq
  shape := funext h.shape_eq
  qual := funext h.qual_eq
  unqualified := funext h.unqualified_eq
  variants := funext h.variants_eq
  paramSet := funext h.paramSet_eq
  classBody := funext h.classBody_eq
  enumBody := funext h.enumBody_eq
  openClass := funext h.openClass_eq
  openEnum := funext h.openEnum_eq
  completed := h.completed

/-- After the same requests, a new arena and a new store give the same answers. -/
theorem Runs.answersAs {target : Target} (hruns : (new target).Runs requests arena) :
    arena.AnswersAs ((Store.new target).afterAll requests) :=
  (hruns.represents (represents_new target)).answersAs

/-! ### What the registries say -/

/-- The links, lists and maps of an arena say the same about its types: which type a type is without
qualifiers, which variants that type has, and which type has a shape, or qualifiers on top of
another type. -/
structure Coherent (arena : Arena) : Prop where
  plain : ∀ {type : TypeId} {slot : Slot}, arena.slot? type = some slot →
    ∃ own, arena.slot? slot.plain = some own ∧ own.shape = slot.shape ∧ own.qual = Qual.none
  distinct : ∀ {type other : TypeId} {slot own : Slot}, arena.slot? type = some slot →
    arena.slot? other = some own → slot.plain = own.plain → slot.qual = own.qual → type = other
  variants : ∀ {type other : TypeId} {slot : Slot}, arena.slot? type = some slot →
    (other ∈ slot.variants ↔ other ≠ type ∧ ∃ own, arena.slot? other = some own ∧ own.plain = type)
  older : ∀ {type : TypeId} {slot : Slot}, arena.slot? type = some slot →
    slot.variants.Pairwise fun a b => a.index < b.index
  byShape : ∀ {shape : Shape TypeId ParamSetId PathId} {type : TypeId},
    arena.byShape[shape]? = some type ↔
      ∃ slot, arena.slot? type = some slot ∧ slot.shape = shape ∧ slot.qual = Qual.none
  byQual : ∀ {plain : TypeId} {qual : Qual PathId} {type : TypeId},
    arena.byQual[(plain, qual)]? = some type ↔ qual ≠ Qual.none ∧
      ∃ slot, arena.slot? type = some slot ∧ slot.plain = plain ∧ slot.qual = qual
  completed : ∀ {type : TypeId}, type ∈ arena.completed ↔
    (arena.classBody? type).isSome ∨ (arena.enumBody? type).isSome
  once : arena.completed.Nodup

namespace Represents

variable {type other plain : TypeId} {slot own : Slot}

/-- A type that has a slot is a variant of the one that it is linked to. -/
theorem node?_eq_some (h : arena.Represents store) {shape : Shape TypeId ParamSetId PathId}
    {qual : Qual PathId} : store.node? type = some ⟨shape, qual⟩ ↔
      ∃ slot, arena.slot? type = some slot ∧ slot.shape = shape ∧ slot.qual = qual := by
  rw [h.node?_eq, Option.map_eq_some_iff]
  refine exists_congr fun slot => and_congr_right fun _ => ?_
  rw [Slot.node, Node.mk.injEq]

/-- Types are linked to one type exactly if they have one shape. -/
theorem plain_eq_iff (h : arena.Represents store) (hs : arena.slot? type = some slot)
    (hp : store.node? plain = some (.plain own.shape)) :
    slot.plain = plain ↔ slot.shape = own.shape := by
  have hslot := (h.slots type slot hs).plain
  constructor
  · rintro rfl
    exact congrArg Node.shape (Option.some.inj (hslot.symm.trans hp))
  · intro heq
    rw [heq] at hslot
    exact Store.type_eq_of_node_eq hslot hp

theorem coherent (h : arena.Represents store) : arena.Coherent where
  plain hs := h.node?_eq_some.mp (h.slots _ _ hs).plain
  distinct := by
    intro type other slot own hs ho hplain hqual
    have hslot := h.slots type slot hs
    have hshape := (h.plain_eq_iff hs (h.slots other own ho).plain).mp hplain
    have hnode : slot.node = own.node := by rw [Slot.node, hshape, hqual, Slot.node]
    exact Store.type_eq_of_node_eq hslot.node (hnode ▸ (h.slots other own ho).node)
  variants := by
    intro type other slot hs
    have hslot := h.slots type slot hs
    rw [hslot.variants]
    split
    next hq =>
      have hn : store.node? type = some (.plain slot.shape) :=
        h.node?_eq_some.mpr ⟨slot, hs, rfl, hq⟩
      have hlinked {own : Slot} (ho : arena.slot? other = some own) :
          own.plain = type ↔ own.shape = slot.shape := h.plain_eq_iff ho hn
      rw [List.mem_filter, Store.qualifies_eq_true]
      constructor
      · rintro ⟨_, qual, ho, hqual⟩
        obtain ⟨own, hown, hshape, rfl⟩ := h.node?_eq_some.mp ho
        refine ⟨?_, own, hown, (hlinked hown).mpr hshape⟩
        rintro rfl
        exact hqual (congrArg Node.qual (Option.some.inj (ho.symm.trans hn)))
      · rintro ⟨hne, own, hown, hplain⟩
        have ho := h.node?_eq_some.mpr ⟨own, hown, (hlinked hown).mp hplain, rfl⟩
        refine ⟨Store.mem_types_of_node? ho, own.qual, ho, fun hqual => hne ?_⟩
        rw [hqual] at ho
        exact Store.type_eq_of_node_eq ho hn
    next hq =>
      refine iff_of_false (List.not_mem_nil) ?_
      rintro ⟨_, own, hown, rfl⟩
      have heq := hslot.node.symm.trans (h.slots other own hown).plain
      exact hq (congrArg Node.qual (Option.some.inj heq))
  older := by
    intro type slot hs
    rw [(h.slots type slot hs).variants]
    split
    · exact store.pairwise_types.filter _
    · exact .nil
  byShape := by
    intro shape type
    rw [h.byShape]
    exact h.node?_eq_some
  byQual := by
    intro plain qual type
    rw [h.byQual]
    refine and_congr_right fun _ => ?_
    constructor
    · rintro ⟨shape, hp, hn⟩
      obtain ⟨slot, hs, rfl, hq⟩ := h.node?_eq_some.mp hn
      exact ⟨slot, hs, (h.plain_eq_iff hs hp).mpr rfl, hq⟩
    · rintro ⟨slot, hs, rfl, hq⟩
      exact ⟨slot.shape, (h.slots type slot hs).plain, h.node?_eq_some.mpr ⟨slot, hs, rfl, hq⟩⟩
  completed := by
    intro type
    rw [h.completed, h.classes, h.enums]
    exact Store.mem_completionOrder_iff
  once := h.once

end Represents

/-- Whatever is requested of a new arena, what its registries say is the same. -/
theorem Runs.coherent {target : Target} (hruns : (new target).Runs requests arena) :
    arena.Coherent :=
  (hruns.represents (represents_new target)).coherent

/-- Whatever is requested of a new arena, the segments of a path are the keywords along its
links. -/
theorem Runs.segments_eq_ok_iff {target : Target} (hruns : (new target).Runs requests arena)
    {path : PathId} {segments : List Keyword} :
    arena.interner.segments path = .ok segments ↔ arena.interner.Climbs path segments :=
  (hruns.represents (represents_new target)).names.segments_eq_ok_iff_climbs

end Arena

/-! ### Every run of a store -/

namespace Store

/-- Wherever the first store is represented, requests lead on to where the second one is. -/
def Led (old new : Store) : Prop :=
  ∀ arena : Arena, arena.Represents old →
    ∃ requests later, arena.Runs requests later ∧ later.Represents new

instance : Std.Refl Led := ⟨fun _ arena h => ⟨[], arena, .nil arena, h⟩⟩

instance : Trans Led Led Led where
  trans hab hbc := by
    intro arena h
    obtain ⟨requests, later, hruns, hlater⟩ := hab arena h
    obtain ⟨others, last, hrest, hlast⟩ := hbc later hlater
    exact ⟨requests ++ others, last, hruns.append hrest, hlast⟩

/-- A request that arenas know leads on. -/
theorem led_effect (request : Request)
    (hstep : ∀ arena : Arena, ∃ answer next, arena.Step request answer next) (store : Store) :
    store.Led (request.effect store) := by
  intro arena h
  obtain ⟨answer, next, hnext⟩ := hstep arena
  exact ⟨[request], next, .cons hnext (.nil next), (h.step hnext).2⟩

theorem led_asks {α : Type} {request : Build α} (ha : Load.Asks request) : Keeps Led request := by
  cases ha with
  | intern text => exact led_effect (.intern text) fun _ => ⟨_, _, .intern text⟩
  | path texts => exact led_effect (.path texts) fun _ => ⟨_, _, .path texts⟩
  | params types variadic =>
      exact led_effect (.params types variadic) fun _ => ⟨_, _, .params types variadic⟩
  | enter asked => exact led_effect (.enter asked) fun _ => ⟨_, _, .enter asked⟩
  | qualify type qual =>
      exact led_effect (.qualify type qual) fun _ => ⟨_, _, .qualify type qual⟩
  | openClass type | openEnum type => exact Build.keeps_query _

/-- Whatever is requested of a store, reading and completing several bodies among it, requests to an
arena do as well. -/
theorem led_request (request : Request) (store : Store) : store.Led (request.effect store) := by
  cases request with
  | loadKeyword items => exact (Load.composes_along led_asks).keyword ⟨store, items⟩
  | loadPath items => exact (Load.composes_along led_asks).path ⟨store, items⟩
  | loadType items => exact Load.along_type led_asks ⟨store, items⟩
  | loadTables items => exact Load.along_tables led_asks ⟨store, items⟩
  | completeAll bodies =>
      exact Build.keeps_bodies
        (fun draft => led_effect (.completeClass draft) fun _ => ⟨_, _, .completeClass draft⟩)
        (fun draft base => led_effect (.completeEnum draft base)
          fun _ => ⟨_, _, .completeEnum draft base⟩) bodies store
  | intern text => exact led_effect _ (fun _ => ⟨_, _, .intern text⟩) store
  | extend parent keyword => exact led_effect _ (fun _ => ⟨_, _, .extend parent keyword⟩) store
  | child parent text => exact led_effect _ (fun _ => ⟨_, _, .child parent text⟩) store
  | path texts => exact led_effect _ (fun _ => ⟨_, _, .path texts⟩) store
  | retarget target => exact led_effect _ (fun _ => ⟨_, _, .retarget target⟩) store
  | params types variadic => exact led_effect _ (fun _ => ⟨_, _, .params types variadic⟩) store
  | enter asked => exact led_effect _ (fun _ => ⟨_, _, .enter asked⟩) store
  | qualify type qual => exact led_effect _ (fun _ => ⟨_, _, .qualify type qual⟩) store
  | addQual type qual => exact led_effect _ (fun _ => ⟨_, _, .addQual type qual⟩) store
  | isComplete type => exact led_effect _ (fun _ => ⟨_, _, .isComplete type⟩) store
  | completeClass draft => exact led_effect _ (fun _ => ⟨_, _, .completeClass draft⟩) store
  | completeEnum draft base => exact led_effect _ (fun _ => ⟨_, _, .completeEnum draft base⟩) store

/-- Every store that requests led to is what an arena stands for that requests led to. -/
theorem Reachable.represented {store : Store} (h : store.Reachable) :
    ∃ target requests arena, (Arena.new target).Runs requests arena ∧ arena.Represents store := by
  obtain ⟨target, hruns⟩ := h
  refine ⟨target, ?_⟩
  induction hruns with
  | refl => exact ⟨[], _, .nil _, Arena.represents_new target⟩
  | tail _ hstep ih =>
      obtain ⟨requests, arena, hruns, hrep⟩ := ih
      obtain ⟨request, _, rfl⟩ := hstep
      obtain ⟨others, later, hrest, hlater⟩ := led_request request _ arena hrep
      exact ⟨requests ++ others, later, hruns.append hrest, hlater⟩

end Store

end TypeGraph

import TypeGraph.Arena.Edit
import TypeGraph.Proofs.Fixing
import TypeGraph.Proofs.Interning
import TypeGraph.Proofs.Qualifying
import TypeGraph.Proofs.Referring
import TypeGraph.Proofs.Refining

/-!
Arenas and the stores that they stand for. Main statements: the links, lists and maps of an arena
answer what a store computes from its types (`Arena.Represents.unqualified_eq`,
`Arena.Represents.variants_eq`, `Arena.Represents.classBody_eq`), and what is appended because no
map knows it is entered into the store (`Arena.Represents.pushPlain`,
`Arena.Represents.pushVariant`).
-/

namespace TypeGraph

theorem lookup_concat {α β : Type} [DecidableEq α] (list : List (α × β)) (key other : α)
    (value : β) : (list ++ [(key, value)]).lookup other =
      (list.lookup other).or (if other = key then some value else none) := by
  rw [List.lookup_append, List.lookup_cons, List.lookup_nil]
  by_cases h : other = key
  · simp [h]
  · simp [h, beq_false_of_ne h]

/-! ### Entering a type that is new -/

namespace Store

variable {store : Store} {node other : Node} {type : TypeId}

theorem node?_withNode_iff (hnew : node ∉ store.nodes) :
    (store.withNode node).node? type = some other ↔
      store.node? type = some other ∨ type = ⟨store.nodes.size⟩ ∧ other = node := by
  have hend : (store.withNode node).node? ⟨store.nodes.size⟩ = some node := by
    rw [← Table.indexOf_of_notMem hnew]
    exact store.node?_withNode node
  constructor
  · intro h
    rcases Table.get?_insert_cases h with hold | ⟨rfl, hge⟩
    · exact Or.inl hold
    · exact Or.inr ⟨type_eq_of_node_eq h hend, rfl⟩
  · rintro (hold | ⟨rfl, rfl⟩)
    · exact Table.get?_insert_of_get? _ hold
    · exact hend

theorem types_withNode (hnew : node ∉ store.nodes) :
    (store.withNode node).types = store.types ++ [⟨store.nodes.size⟩] := by
  unfold types
  rw [show (store.withNode node).nodes.size = _ from Table.size_insert_of_notMem hnew,
    List.range_succ, List.map_append]
  rfl

/-- The variants of a shape are those that were there, and the new type if it is one. -/
theorem filter_qualifies_withNode (hnew : node ∉ store.nodes)
    (shape : Shape TypeId ParamSetId PathId) :
    (store.withNode node).types.filter ((store.withNode node).qualifies shape) =
      store.types.filter (store.qualifies shape) ++
        if node.shape = shape ∧ node.qual ≠ Qual.none then [⟨store.nodes.size⟩] else [] := by
  rw [types_withNode hnew, List.filter_append]
  congr 1
  · refine List.filter_congr fun type hm => ?_
    obtain ⟨place, hplace, rfl⟩ := List.mem_map.mp hm
    have hlt : (TypeId.mk place).index < store.nodes.size := List.mem_range.mp hplace
    obtain ⟨there, hthere⟩ := node?_of_lt hlt
    rw [qualifies, qualifies, hthere, (node?_withNode_iff hnew).mpr (Or.inl hthere)]
  · have hlast : (store.withNode node).node? ⟨store.nodes.size⟩ = some node :=
      (node?_withNode_iff hnew).mpr (Or.inr ⟨rfl, rfl⟩)
    rw [List.filter_cons, List.filter_nil]
    refine if_congr ?_ rfl rfl
    rw [qualifies_eq_true, hlast]
    cases node
    simp

theorem definition?_defining_of_ne {names : Names} {definition : Definition} {other : TypeId}
    (hne : other ≠ type) :
    (store.defining names type definition).definition? other = store.definition? other := by
  rw [Store.definition?, Store.defining, lookup_concat, if_neg hne, Option.or_none]
  rfl

end Store

/-- A body is that of a class or enum, as its shape says. -/
def Definition.IsOf (shape : Shape TypeId ParamSetId PathId) : Definition → Prop
  | .ofClass _ => ∃ name isStruct, shape = .classType name isStruct
  | .ofEnum _ => ∃ name, shape = .enumType name

namespace Arena

/-- What is stored of one type of `store`. -/
structure Stores (store : Store) (type : TypeId) (slot : Slot) : Prop where
  node : store.node? type = some slot.node
  plain : store.node? slot.plain = some (.plain slot.shape)
  variants : slot.variants =
    if slot.qual = Qual.none then store.types.filter (store.qualifies slot.shape) else []
  complete : slot.complete = true ↔ type ∈ store.settled

/-- An arena has what `store` has, under the same numbers. Its registries, which the store does
without, find the types and bodies of the store and nothing else. -/
structure Represents (arena : Arena) (store : Store) : Prop where
  names : arena.interner.Represents store.names
  target : arena.target = store.target
  size : arena.slots.size = store.nodes.size
  slots : ∀ (type : TypeId) (slot : Slot), arena.slot? type = some slot → Stores store type slot
  settled : ∀ type ∈ store.settled, type.index < store.nodes.size
  byShape : ∀ (shape : Shape TypeId ParamSetId PathId) (type : TypeId),
    arena.byShape[shape]? = some type ↔ store.node? type = some (.plain shape)
  byQual : ∀ (plain : TypeId) (qual : Qual PathId) (type : TypeId),
    arena.byQual[(plain, qual)]? = some type ↔ qual ≠ Qual.none ∧
      ∃ shape, store.node? plain = some (.plain shape) ∧ store.node? type = some ⟨shape, qual⟩
  paramSets : arena.paramSets.table = store.paramSets
  classes : ∀ type, arena.classBody? type = store.classBody? type
  enums : ∀ type, arena.enumBody? type = store.enumBody? type
  completed : arena.completed = store.definitions.map Prod.fst
  once : arena.completed.Nodup
  definitions : arena.definitions = store.definitions
  bodies : ∀ type definition, store.definition? type = some definition →
    ∃ shape, store.shape type = .ok shape ∧ definition.IsOf shape

section Storing

variable {store : Store} {type : TypeId} {slot : Slot} {node : Node}

/-- What is stored of a type stays as it is when another one comes, which it does not list. -/
theorem Stores.unlisted (h : Stores store type slot) (hnew : node ∉ store.nodes)
    (hlist : ¬(slot.qual = Qual.none ∧ node.shape = slot.shape ∧ node.qual ≠ Qual.none)) :
    Stores (store.withNode node) type slot where
  node := (Store.node?_withNode_iff hnew).mpr (Or.inl h.node)
  plain := (Store.node?_withNode_iff hnew).mpr (Or.inl h.plain)
  variants := by
    rw [h.variants]
    split
    next hq =>
        rw [Store.filter_qualifies_withNode hnew, if_neg fun hnode => hlist ⟨hq, hnode⟩,
          List.append_nil]
    next => rfl
  complete := h.complete

/-- A type without qualifiers lists a variant of it that comes. -/
theorem Stores.listed (h : Stores store type slot) (hnew : node ∉ store.nodes)
    (hq : slot.qual = Qual.none) (hnode : node.shape = slot.shape ∧ node.qual ≠ Qual.none) :
    Stores (store.withNode node) type (slot.addVariant ⟨store.nodes.size⟩) where
  node := (Store.node?_withNode_iff hnew).mpr (Or.inl h.node)
  plain := (Store.node?_withNode_iff hnew).mpr (Or.inl h.plain)
  variants := by
    rw [Slot.addVariant, h.variants]
    dsimp only
    rw [if_pos hq, if_pos hq, Store.filter_qualifies_withNode hnew, if_pos hnode]
  complete := h.complete

end Storing

namespace Represents

variable {arena : Arena} {store : Store} {type plain : TypeId} {slot : Slot} {node : Node}

/-! ### What is stored -/

theorem node?_eq (h : arena.Represents store) (type : TypeId) :
    store.node? type = (arena.slot? type).map Slot.node := by
  cases hs : arena.slot? type with
  | some slot => exact (h.slots type slot hs).node
  | none =>
      have hlarge := Array.getElem?_eq_none_iff.mp hs
      rw [h.size] at hlarge
      exact List.getElem?_eq_none_iff.mpr hlarge

theorem exists_slot (h : arena.Represents store) (hn : store.node? type = some node) :
    ∃ slot, arena.slot? type = some slot ∧ slot.node = node := by
  rw [h.node?_eq] at hn
  exact Option.map_eq_some_iff.mp hn

theorem shape_eq (h : arena.Represents store) (type : TypeId) :
    arena.shape type = store.shape type := by
  unfold Arena.shape Store.shape Arena.slot Store.node
  rw [h.node?_eq]
  cases arena.slot? type <;> rfl

theorem qual_eq (h : arena.Represents store) (type : TypeId) :
    arena.qual type = store.qual type := by
  unfold Arena.qual Store.qual Arena.slot Store.node
  rw [h.node?_eq]
  cases arena.slot? type <;> rfl

theorem kind_eq (h : arena.Represents store) (type : TypeId) :
    arena.kind type = store.kind type := by
  rw [Arena.kind, Store.kind, h.shape_eq]

/-- The link of a type is to the type that the store finds by its shape. -/
theorem unqualified_eq (h : arena.Represents store) (type : TypeId) :
    arena.unqualified type = store.unqualified type := by
  unfold Arena.unqualified Store.unqualified Store.shape Arena.slot Store.node
  rw [h.node?_eq]
  cases hs : arena.slot? type with
  | none => rfl
  | some slot => exact congrArg Except.ok (Store.idOf_of_node? (h.slots type slot hs).plain).symm

/-- A type without qualifiers lists its variants. -/
theorem variants_plain (h : arena.Represents store) {shape : Shape TypeId ParamSetId PathId}
    (hp : store.node? plain = some (.plain shape)) :
    ∃ slot, arena.slot? plain = some slot ∧
      slot.variants = store.types.filter (store.qualifies shape) := by
  obtain ⟨slot, hs, hnode⟩ := h.exists_slot hp
  cases slot
  cases hnode
  exact ⟨_, hs, (h.slots plain _ hs).variants⟩

/-- The variants that are listed are those that the store finds among all types. -/
theorem variants_eq (h : arena.Represents store) (type : TypeId) :
    arena.variants type = store.variants type := by
  cases hs : arena.slot? type with
  | some slot =>
      obtain ⟨first, hfirst, hvariants⟩ := h.variants_plain (h.slots type slot hs).plain
      have hlisted : arena.variants type = .ok (slot.plain :: first.variants) :=
        bind_eq_ok.mpr ⟨slot.plain, bind_eq_ok.mpr ⟨slot, orFail_eq_ok.mpr hs, rfl⟩,
          bind_eq_ok.mpr ⟨first, orFail_eq_ok.mpr hfirst, rfl⟩⟩
      rw [hlisted, hvariants]
      refine (Store.variants_eq_ok.mpr ⟨_, (h.slots type slot hs).node, ?_⟩).symm
      rw [Slot.node, Store.idOf_of_node? (h.slots type slot hs).plain]
  | none =>
      unfold Arena.variants Arena.unqualified Arena.slot Store.variants Store.shape Store.node
      rw [h.node?_eq, hs]
      rfl

theorem paramSet_eq (h : arena.Represents store) (set : ParamSetId) :
    arena.paramSet set = store.paramSet set := by
  rw [Arena.paramSet, Store.paramSet, ← h.paramSets, Registry.get?_table]

theorem view_eq (h : arena.Represents store) (type : TypeId) :
    arena.view type = store.view type := by
  rw [Arena.view, Store.view, h.shape_eq, funext h.paramSet_eq]

/-- A type that is not stored is refused, and was never noted. -/
theorem unknown (h : arena.Represents store) (hs : arena.slot? type = none) :
    type ∉ store.settled ∧ store.view type = .error (.fault (.unknownType type)) := by
  have hunknown : ¬store.Holds type := by
    rintro ⟨node, hn⟩
    rw [h.node?_eq, hs] at hn
    cases hn
  exact ⟨fun hm => hunknown (Store.node?_of_lt (h.settled type hm)),
    Store.view_of_not_holds hunknown⟩

/-! ### Classes and enums -/

theorem classOwner_eq (h : arena.Represents store) (type : TypeId) :
    arena.classOwner type = store.classOwner type := by
  rw [Arena.classOwner, Store.classOwner, h.kind_eq, h.unqualified_eq]

theorem enumOwner_eq (h : arena.Represents store) (type : TypeId) :
    arena.enumOwner type = store.enumOwner type := by
  rw [Arena.enumOwner, Store.enumOwner, h.kind_eq, h.unqualified_eq]

theorem classBody_eq (h : arena.Represents store) (type : TypeId) :
    arena.classBody type = store.classBody type := by
  rw [Arena.classBody, Store.classBody, h.classOwner_eq, funext h.classes]

theorem enumBody_eq (h : arena.Represents store) (type : TypeId) :
    arena.enumBody type = store.enumBody type := by
  rw [Arena.enumBody, Store.enumBody, h.enumOwner_eq, funext h.enums]

theorem openClass_eq (h : arena.Represents store) (type : TypeId) :
    arena.openClass type = store.openClass type := by
  rw [Arena.openClass, Store.openClass, h.classOwner_eq, funext h.classes]

theorem openEnum_eq (h : arena.Represents store) (type : TypeId) :
    arena.openEnum type = store.openEnum type := by
  rw [Arena.openEnum, Store.openEnum, h.enumOwner_eq, funext h.enums]

/-- But for names and notes, an arena has in it what the store has. -/
theorem contents_eq (h : arena.Represents store) :
    arena.contents = { store with names := Names.empty, settled := [] } := by
  have hnodes : arena.slots.toList.map Slot.node = store.nodes.entries := by
    refine List.ext_getElem? fun place => ?_
    rw [List.getElem?_map, Array.getElem?_toList]
    exact (h.node?_eq ⟨place⟩).symm
  rw [contents, hnodes, Table.ofList_entries, h.target, h.paramSets, h.definitions]

theorem classLayout_eq (h : arena.Represents store) (draft : ClassDraft) :
    arena.contents.classLayout draft = store.classLayout draft := by
  rw [h.contents_eq]
  with_unfolding_all rfl

/-! ### Entering types -/

theorem plain_mem (h : arena.Represents store) (hn : store.node? type = some node) :
    Node.plain node.shape ∈ store.nodes := by
  obtain ⟨slot, hs, rfl⟩ := h.exists_slot hn
  exact Table.mem_of_get? (h.slots type slot hs).plain

/-- What is stored of a type that comes. -/
theorem stores_new (h : arena.Represents store) (hnew : node ∉ store.nodes)
    (hplain : (store.withNode node).node? plain = some (.plain node.shape)) :
    Stores (store.withNode node) ⟨store.nodes.size⟩ ⟨node.shape, node.qual, plain, [], false⟩ where
  node := (Store.node?_withNode_iff hnew).mpr (Or.inr ⟨rfl, rfl⟩)
  plain := hplain
  variants := by
    dsimp only
    split
    next hq =>
        rw [Store.filter_qualifies_withNode hnew, if_neg fun hnode => hnode.2 hq, List.append_nil,
          eq_comm, List.filter_eq_nil_iff]
        intro other _ hother
        obtain ⟨own, hn, _⟩ := Store.qualifies_eq_true.mp hother
        have hmem := h.plain_mem hn
        rw [Node.plain, ← hq] at hmem
        exact hnew hmem
    next => rfl
  complete := by
    have hend : (⟨store.nodes.size⟩ : TypeId) ∉ store.settled :=
      fun hm => Nat.lt_irrefl _ (h.settled _ hm)
    exact iff_of_false Bool.false_ne_true hend

/-- Behind the types that were there, the one that comes is stored. -/
theorem stores_pushed (h : arena.Represents store) (hnew : node ∉ store.nodes)
    (hplain : (store.withNode node).node? plain = some (.plain node.shape))
    (hs : (arena.slots.push ⟨node.shape, node.qual, plain, [], false⟩)[type.index]? = some slot) :
    type = ⟨store.nodes.size⟩ ∧ Stores (store.withNode node) type slot ∨
      arena.slot? type = some slot := by
  rw [Array.getElem?_push] at hs
  split at hs
  next hplace =>
      cases hs
      obtain rfl : type = ⟨store.nodes.size⟩ := congrArg TypeId.mk (hplace.trans h.size)
      exact Or.inl ⟨rfl, h.stores_new hnew hplain⟩
  next => exact Or.inr hs

/-- A new type needs what is stored of all types, and the two maps that find them. -/
theorem push (h : arena.Represents store) (hnew : node ∉ store.nodes) {slots : Array Slot}
    {byShape : Std.HashMap (Shape TypeId ParamSetId PathId) TypeId}
    {byQual : Std.HashMap (TypeId × Qual PathId) TypeId}
    (hsize : slots.size = arena.slots.size + 1)
    (hslots : ∀ (type : TypeId) (slot : Slot), slots[type.index]? = some slot →
      Stores (store.withNode node) type slot)
    (hshape : ∀ (shape : Shape TypeId ParamSetId PathId) (type : TypeId),
      byShape[shape]? = some type ↔ (store.withNode node).node? type = some (.plain shape))
    (hqual : ∀ (plain : TypeId) (qual : Qual PathId) (type : TypeId),
      byQual[(plain, qual)]? = some type ↔ qual ≠ Qual.none ∧ ∃ shape,
        (store.withNode node).node? plain = some (.plain shape) ∧
          (store.withNode node).node? type = some ⟨shape, qual⟩) :
    { arena with slots, byShape, byQual }.Represents (store.withNode node) := by
  have hgrown : (store.withNode node).nodes.size = store.nodes.size + 1 :=
    Table.size_insert_of_notMem hnew
  have hext := store.extends_withNode node
  have hold {type : TypeId} {shape : Shape TypeId ParamSetId PathId}
      (hs : store.shape type = .ok shape) : (store.withNode node).shape type = .ok shape := by
    obtain ⟨other, hn, rfl⟩ := Store.shape_eq_ok.mp hs
    exact Store.shape_eq_ok.mpr ⟨other, hext.node? hn, rfl⟩
  exact { h with
    size := by rw [hgrown, hsize, h.size]
    slots := hslots
    settled := fun type hm => by
      have hlt := h.settled type hm
      omega
    byShape := hshape
    byQual := hqual
    bodies := fun type definition hd => by
      obtain ⟨shape, hs, hof⟩ := h.bodies type definition hd
      exact ⟨shape, hold hs, hof⟩ }

theorem plain_notMem (h : arena.Represents store) {shape : Shape TypeId ParamSetId PathId}
    (fresh : arena.byShape[shape]? = none) : Node.plain shape ∉ store.nodes := by
  intro hm
  have hfound := (h.byShape shape _).mpr (Store.node?_idOf hm)
  rw [fresh] at hfound
  cases hfound

theorem variant_notMem (h : arena.Represents store)
    (hn : store.node? plain = some (.plain node.shape)) (hq : node.qual ≠ Qual.none)
    (fresh : arena.byQual[(plain, node.qual)]? = none) : node ∉ store.nodes := by
  intro hm
  have hfound := (h.byQual plain node.qual _).mpr ⟨hq, node.shape, hn, Store.node?_idOf hm⟩
  rw [fresh] at hfound
  cases hfound

/-- Appending a shape that no map knows is entering it without qualifiers. -/
theorem pushPlain (h : arena.Represents store) {shape : Shape TypeId ParamSetId PathId}
    (fresh : arena.byShape[shape]? = none) :
    (arena.pushPlain shape).Represents (store.withNode (.plain shape)) := by
  have hnew := h.plain_notMem fresh
  have hiff {type : TypeId} {node : Node} : (store.withNode (.plain shape)).node? type = some node ↔
      store.node? type = some node ∨ type = ⟨store.nodes.size⟩ ∧ node = .plain shape :=
    Store.node?_withNode_iff hnew
  have hlast : (store.withNode (.plain shape)).node? ⟨arena.slots.size⟩ = some (.plain shape) :=
    hiff.mpr (Or.inr ⟨congrArg TypeId.mk h.size, rfl⟩)
  refine h.push hnew (Array.size_push _) ?_ ?_ ?_
  · intro type slot hs
    rcases h.stores_pushed hnew hlast hs with ⟨_, hslot⟩ | hold
    · exact hslot
    · exact (h.slots type slot hold).unlisted hnew fun hnode => hnode.2.2 rfl
  · intro other type
    rw [hiff, Std.HashMap.getElem?_insert, h.size]
    by_cases hs : shape = other
    · subst hs
      have hold : store.node? type ≠ some (.plain shape) := fun hn => hnew (Table.mem_of_get? hn)
      simp [hold, eq_comm]
    · have hne : Node.plain other ≠ .plain shape := fun heq => hs (congrArg Node.shape heq).symm
      simp [hs, hne, h.byShape]
  · intro plain qual type
    rw [h.byQual]
    constructor
    · rintro ⟨hq, other, hp, hn⟩
      exact ⟨hq, other, hiff.mpr (Or.inl hp), hiff.mpr (Or.inl hn)⟩
    · rintro ⟨hq, other, hp, hn⟩
      rcases hiff.mp hn with hn | ⟨_, heq⟩
      · rcases hiff.mp hp with hp | ⟨_, heq⟩
        · exact ⟨hq, other, hp, hn⟩
        · -- A variant is there only after its type without qualifiers.
          exact absurd (heq ▸ h.plain_mem hn) hnew
      · exact absurd (congrArg Node.qual heq) hq

/-- Appending a variant that no map knows is entering it. -/
theorem pushVariant (h : arena.Represents store) (hn : store.node? plain = some (.plain node.shape))
    (hq : node.qual ≠ Qual.none) (fresh : arena.byQual[(plain, node.qual)]? = none) :
    (arena.pushVariant plain node).Represents (store.withNode node) := by
  have hnew := h.variant_notMem hn hq fresh
  have hiff {type : TypeId} {other : Node} : (store.withNode node).node? type = some other ↔
      store.node? type = some other ∨ type = ⟨store.nodes.size⟩ ∧ other = node :=
    Store.node?_withNode_iff hnew
  refine h.push hnew (by rw [Array.size_modify, Array.size_push]) ?_ ?_ ?_
  · intro type slot hs
    rw [Array.getElem?_modify] at hs
    split at hs
    next hplace =>
        obtain rfl : plain = type := congrArg TypeId.mk hplace
        obtain ⟨old, hold, rfl⟩ := Option.map_eq_some_iff.mp hs
        rcases h.stores_pushed hnew (hiff.mpr (Or.inl hn)) hold with ⟨rfl, _⟩ | hold
        · exact absurd (Store.lt_size_of_node? hn) (Nat.lt_irrefl _)
        · have hslot := h.slots plain old hold
          have heq : old.node = .plain node.shape := Option.some.inj (hslot.node.symm.trans hn)
          rw [h.size]
          exact hslot.listed hnew (congrArg Node.qual heq) ⟨(congrArg Node.shape heq).symm, hq⟩
    next hplace =>
        rcases h.stores_pushed hnew (hiff.mpr (Or.inl hn)) hs with ⟨_, hslot⟩ | hold
        · exact hslot
        · have hslot := h.slots type slot hold
          refine hslot.unlisted hnew fun hlist => hplace ?_
          have hnode : slot.node = .plain node.shape := by
            rw [Slot.node, hlist.1, ← hlist.2.1]
            rfl
          exact congrArg TypeId.index (Store.type_eq_of_node_eq hn (hnode ▸ hslot.node))
  · intro other type
    rw [h.byShape, hiff]
    have hne : Node.plain other ≠ node := fun heq => hq (congrArg Node.qual heq).symm
    simp [hne]
  · intro other qual type
    rw [Std.HashMap.getElem?_insert, h.size]
    by_cases hkey : (plain, node.qual) = (other, qual)
    · obtain ⟨rfl, rfl⟩ := Prod.mk.inj hkey
      rw [if_pos (beq_self_eq_true _)]
      constructor
      · rintro ⟨⟩
        exact ⟨hq, node.shape, hiff.mpr (Or.inl hn), hiff.mpr (Or.inr ⟨rfl, rfl⟩)⟩
      · rintro ⟨_, shape, hp, ht⟩
        rcases hiff.mp ht with ht | ⟨rfl, _⟩
        · obtain rfl := congrArg Node.shape (Option.some.inj
            (hp.symm.trans (hiff.mpr (Or.inl hn))))
          exact absurd (Table.mem_of_get? ht) hnew
        · rfl
    · rw [if_neg (by simpa using hkey), h.byQual]
      constructor
      · rintro ⟨hqual, shape, hp, ht⟩
        exact ⟨hqual, shape, hiff.mpr (Or.inl hp), hiff.mpr (Or.inl ht)⟩
      · rintro ⟨hqual, shape, hp, ht⟩
        rcases hiff.mp hp with hother | ⟨_, heq⟩
        · rcases hiff.mp ht with ht | ⟨_, rfl⟩
          · exact ⟨hqual, shape, hother, ht⟩
          · exact absurd (congrArg (·, qual) (Store.type_eq_of_node_eq hn hother)) hkey
        · exact absurd (congrArg Node.qual heq).symm hq

/-! ### Everything else -/

theorem withNames (h : arena.Represents store) {interner : Interner} {names : Names}
    (hnames : interner.Represents names) :
    { arena with interner }.Represents { store with names } :=
  { h with
    names := hnames
    slots := fun type slot hs => { h.slots type slot hs with } }

theorem withParams (h : arena.Represents store) {paramSets : Registry ParamSet}
    {params : ParamSet} (hparams : paramSets.table = store.paramSets.insert params) :
    { arena with paramSets }.Represents (store.withParams params) :=
  { h with
    paramSets := hparams
    slots := fun type slot hs => { h.slots type slot hs with } }

theorem withTarget (h : arena.Represents store) (target : Target) :
    (arena.withTarget target).Represents (store.withTarget target) :=
  { h with
    target := rfl
    slots := fun type slot hs => { h.slots type slot hs with } }

/-- A note is put with the type that it is about. -/
theorem settle (h : arena.Represents store) (hlt : type.index < store.nodes.size) :
    (arena.settle type).Represents (store.noting (type :: store.settled)) :=
  { h with
    size := by rw [Arena.settle, Array.size_modify, h.size]; rfl
    settled := fun other hm => by
      rcases List.mem_cons.mp hm with rfl | hm
      · exact hlt
      · exact h.settled other hm
    slots := fun other slot hs => by
      have hget : (arena.settle type).slot? other =
          if type.index = other.index then (arena.slot? other).map ({ · with complete := true })
          else arena.slot? other := Array.getElem?_modify
      rw [hget] at hs
      split at hs
      next hsame =>
        obtain ⟨old, hold, rfl⟩ := Option.map_eq_some_iff.mp hs
        obtain rfl : type = other := congrArg TypeId.mk hsame
        exact { h.slots type old hold with complete := iff_of_true rfl List.mem_cons_self }
      next hother =>
        refine { h.slots other slot hs with complete := ?_ }
        rw [(h.slots other slot hs).complete, Store.settled_noting, List.mem_cons]
        exact ⟨Or.inr, fun hm => hm.resolve_left fun heq => hother (heq ▸ rfl)⟩ }

/-! ### Bodies -/

theorem definition?_of_bodies {arena : Arena} {store : Store}
    (hclasses : ∀ type, arena.classBody? type = store.classBody? type)
    (henums : ∀ type, arena.enumBody? type = store.enumBody? type) :
    arena.definition? = store.definition? := by
  funext type
  unfold Arena.definition?
  rw [hclasses, henums]
  unfold Store.classBody? Store.enumBody?
  cases store.definition? type with
  | none => rfl
  | some definition => cases definition <;> rfl

/-- A class has no body of either kind while it has none of a class, and an enum likewise. -/
theorem definition?_eq_none (h : arena.Represents store) {definition : Definition}
    {shape : Shape TypeId ParamSetId PathId} (hs : store.shape type = .ok shape)
    (hof : definition.IsOf shape) (hopen : match definition with
      | .ofClass _ => store.classBody? type = none
      | .ofEnum _ => store.enumBody? type = none) : store.definition? type = none := by
  rw [Option.eq_none_iff_forall_ne_some]
  intro found hfound
  obtain ⟨shape', hs', hof'⟩ := h.bodies type found hfound
  obtain rfl := Except.ok.inj (hs.symm.trans hs')
  cases definition with
  | ofClass body =>
      obtain ⟨name, isStruct, rfl⟩ := hof
      cases found with
      | ofClass found => simp [Store.classBody?_eq_some.mpr hfound] at hopen
      | ofEnum found =>
          obtain ⟨_, heq⟩ := hof'
          cases heq
  | ofEnum body =>
      obtain ⟨name, rfl⟩ := hof
      cases found with
      | ofClass found =>
          obtain ⟨_, _, heq⟩ := hof'
          cases heq
      | ofEnum found => simp [Store.enumBody?_eq_some.mpr hfound] at hopen

/-- A body that none of the maps knows is fixed as the last one. -/
theorem define (h : arena.Represents store) {definition : Definition}
    {shape : Shape TypeId ParamSetId PathId} (hs : store.shape type = .ok shape)
    (hof : definition.IsOf shape) (hnone : store.definition? type = none)
    {classes : List (TypeId × ClassBody)} {enums : List (TypeId × EnumBody)}
    (hclasses : ∀ other, classes.lookup other =
      (store.defining store.names type definition).classBody? other)
    (henums : ∀ other, enums.lookup other =
      (store.defining store.names type definition).enumBody? other) :
    { arena with classes, enums, completed := arena.completed ++ [type] }.Represents
      (store.defining store.names type definition) := by
  have hself : (store.defining store.names type definition).definition? type =
      some definition := Store.definition?_defining hnone
  have hfresh : type ∉ arena.completed := by
    rw [h.completed]
    exact Store.definition?_eq_none.mp hnone
  have hfound : definition? { arena with classes, enums, completed := arena.completed ++ [type] } =
      (store.defining store.names type definition).definition? :=
    definition?_of_bodies hclasses henums
  refine { h with
    slots := fun type slot hs => { h.slots type slot hs with }
    classes := hclasses
    enums := henums
    completed := ?_
    once := List.nodup_append.mpr ⟨h.once, List.nodup_singleton type, ?_⟩
    definitions := ?_
    bodies := ?_ }
  · rw [h.completed, Store.defining, List.map_append]
    rfl
  · intro other hm last hlast heq
    cases List.mem_singleton.mp hlast
    exact hfresh (heq ▸ hm)
  · have hold : arena.completed.filterMap (fun other =>
        ((store.defining store.names type definition).definition? other).map (other, ·)) =
        store.definitions := by
      rw [← h.definitions, Arena.definitions]
      refine List.filterMap_congr fun other hm => ?_
      have hne : other ≠ type := fun heq => hfresh (heq ▸ hm)
      rw [Store.definition?_defining_of_ne hne, definition?_of_bodies h.classes h.enums]
    rw [Arena.definitions, hfound, List.filterMap_append, hold, List.filterMap_cons, hself]
    rfl
  · intro other found hfound
    by_cases hne : other = type
    · subst hne
      rw [hself] at hfound
      cases hfound
      exact ⟨shape, hs, hof⟩
    · rw [Store.definition?_defining_of_ne hne] at hfound
      exact h.bodies other found hfound

theorem addClass (h : arena.Represents store) {name : PathId} {isStruct : Bool}
    (hs : store.shape type = .ok (.classType name isStruct)) (hopen : store.classBody? type = none)
    (body : ClassBody) : (arena.addClass type body).Represents
      (store.defining store.names type (.ofClass body)) := by
  have hof : (Definition.ofClass body).IsOf (.classType name isStruct) := ⟨name, isStruct, rfl⟩
  have hnone := h.definition?_eq_none hs hof hopen
  have hself : (store.defining store.names type (.ofClass body)).definition? type =
      some (.ofClass body) := Store.definition?_defining hnone
  refine h.define hs hof hnone (fun other => ?_) fun other => ?_
  · rw [lookup_concat, show arena.classes.lookup other = _ from h.classes other]
    split
    next heq => rw [heq, hopen, Store.classBody?_eq_some.mpr hself, Option.none_or]
    next hne =>
        rw [Option.or_none, Store.classBody?, Store.classBody?,
          Store.definition?_defining_of_ne hne]
  · rw [show arena.enums.lookup other = _ from h.enums other, Store.enumBody?, Store.enumBody?]
    by_cases heq : other = type
    · rw [heq, hself, hnone]
    · rw [Store.definition?_defining_of_ne heq]

theorem addEnum (h : arena.Represents store) {name : PathId}
    (hs : store.shape type = .ok (.enumType name)) (hopen : store.enumBody? type = none)
    (body : EnumBody) : (arena.addEnum type body).Represents
      (store.defining store.names type (.ofEnum body)) := by
  have hof : (Definition.ofEnum body).IsOf (.enumType name) := ⟨name, rfl⟩
  have hnone := h.definition?_eq_none hs hof hopen
  have hself : (store.defining store.names type (.ofEnum body)).definition? type =
      some (.ofEnum body) := Store.definition?_defining hnone
  refine h.define hs hof hnone (fun other => ?_) fun other => ?_
  · rw [show arena.classes.lookup other = _ from h.classes other, Store.classBody?,
      Store.classBody?]
    by_cases heq : other = type
    · rw [heq, hself, hnone]
    · rw [Store.definition?_defining_of_ne heq]
  · rw [lookup_concat, show arena.enums.lookup other = _ from h.enums other]
    split
    next heq => rw [heq, hopen, Store.enumBody?_eq_some.mpr hself, Option.none_or]
    next hne =>
        rw [Option.or_none, Store.enumBody?, Store.enumBody?, Store.definition?_defining_of_ne hne]

end Represents

end Arena

end TypeGraph

import TypeGraph.Proofs.Lifting
import TypeGraph.Proofs.Naming
import TypeGraph.Store.Complete

/-!
Stores that only grow. Main statements: what is entered keeps every earlier number, name and body
(`Store.Extends`), and a store whose types are built from older ones stays one (`Store.WellFormed`).
-/

namespace TypeGraph

namespace Store

variable {store old new : Store}

/-! ### Older and newer stores -/

/-- Names, types, parameter lists and bodies are only added. -/
structure Extends (old new : Store) : Prop where
  names : old.names.Extends new.names
  nodes : old.nodes.Extends new.nodes
  paramSets : old.paramSets.Extends new.paramSets
  definitions : old.definitions <+: new.definitions

theorem Extends.refl (store : Store) : store.Extends store :=
  ⟨.refl _, .refl _, .refl _, List.prefix_refl _⟩

theorem Extends.trans {a b c : Store} (hab : a.Extends b) (hbc : b.Extends c) : a.Extends c :=
  ⟨hab.names.trans hbc.names, hab.nodes.trans hbc.nodes, hab.paramSets.trans hbc.paramSets,
    List.IsPrefix.trans hab.definitions hbc.definitions⟩

theorem Extends.node? (h : old.Extends new) {type : TypeId} {node : Node}
    (hn : old.node? type = some node) : new.node? type = some node :=
  h.nodes.get? hn

/-! ### Asking for types -/

theorem node_eq_ok {type : TypeId} {node : Node} :
    store.node type = .ok node ↔ store.node? type = some node :=
  orFail_eq_ok

theorem shape_eq_ok {type : TypeId} {shape : Shape TypeId ParamSetId PathId} :
    store.shape type = .ok shape ↔ ∃ node, store.node? type = some node ∧ node.shape = shape := by
  unfold Store.shape
  rw [bind_eq_ok]
  simp only [node_eq_ok, pure_eq_ok]

theorem shape_eq_error {type : TypeId} {failure : Failure} :
    store.shape type = .error failure ↔
      store.node? type = none ∧ .fault (.unknownType type) = failure := by
  unfold Store.shape Store.node
  rw [bind_eq_error, orFail_eq_error]
  refine or_iff_left ?_
  rintro ⟨node, _, h⟩
  cases h

theorem qual_eq_ok {type : TypeId} {qual : Qual PathId} :
    store.qual type = .ok qual ↔ ∃ node, store.node? type = some node ∧ node.qual = qual := by
  unfold Store.qual
  rw [bind_eq_ok]
  simp only [node_eq_ok, pure_eq_ok]

/-- What is told of a type by its shape alone. -/
theorem of_shape_eq_ok {α : Type} {f : Shape TypeId ParamSetId PathId → α} {type : TypeId} {a : α} :
    (store.shape type >>= fun shape => pure (f shape)) = .ok a ↔
      ∃ node, store.node? type = some node ∧ f node.shape = a := by
  rw [bind_eq_ok]
  simp only [shape_eq_ok, pure_eq_ok]
  constructor
  · rintro ⟨_, ⟨node, hn, rfl⟩, ha⟩
    exact ⟨node, hn, ha⟩
  · rintro ⟨node, hn, ha⟩
    exact ⟨_, ⟨node, hn, rfl⟩, ha⟩

theorem kind_eq_ok {type : TypeId} {kind : Kind} :
    store.kind type = .ok kind ↔ ∃ node, store.node? type = some node ∧ node.shape.kind = kind :=
  of_shape_eq_ok

theorem unqualified_eq_ok {type plain : TypeId} :
    store.unqualified type = .ok plain ↔
      ∃ node, store.node? type = some node ∧ store.idOf (.plain node.shape) = plain :=
  of_shape_eq_ok

theorem paramSet_eq_ok {set : ParamSetId} {params : ParamSet} :
    store.paramSet set = .ok params ↔ store.paramSets.get? set.index = some params :=
  orFail_eq_ok

theorem lt_size_of_node? {type : TypeId} {node : Node} (h : store.node? type = some node) :
    type.index < store.nodes.size :=
  Table.lt_size_of_get? h

theorem node?_of_lt {type : TypeId} (h : type.index < store.nodes.size) :
    ∃ node, store.node? type = some node :=
  ⟨_, List.getElem?_eq_getElem h⟩

/-- A type has one number. -/
theorem type_eq_of_node_eq {a b : TypeId} {node : Node} (ha : store.node? a = some node)
    (hb : store.node? b = some node) : a = b := by
  have h := Table.get?_inj ha hb
  cases a
  cases b
  simpa using h

/-- A parameter list has one number. -/
theorem set_eq_of_params_eq {a b : ParamSetId} {params : ParamSet}
    (ha : store.paramSet a = .ok params) (hb : store.paramSet b = .ok params) : a = b := by
  have h := Table.get?_inj (paramSet_eq_ok.mp ha) (paramSet_eq_ok.mp hb)
  cases a
  cases b
  simpa using h

theorem idOf_of_node? {type : TypeId} {node : Node} (h : store.node? type = some node) :
    store.idOf node = type := by
  have := Table.indexOf_of_get? h
  cases type
  simpa [idOf] using this

theorem node?_idOf {node : Node} (h : node ∈ store.nodes) :
    store.node? (store.idOf node) = some node :=
  Table.get?_indexOf h

/-! ### What types are built from -/

/-- A shape whose parts are types below `bound`. The class of a member is a class without
qualifiers, and the components of a tuple are a closed list. -/
structure Fits (store : Store) (bound : Nat) (shape : Shape TypeId ParamSetId PathId) : Prop where
  base : ∀ part, shape.base? = some part → part.index < bound
  owner : ∀ part, shape.owner? = some part → part.index < bound ∧
    ∃ name isStruct, store.node? part = some (.plain (.classType name isStruct))
  params : ∀ set, shape.params? = some set → ∃ params, store.paramSet set = .ok params ∧
    (∀ part ∈ params.types, part.index < bound) ∧
    (shape.parts? = some set → params.variadic = false)

/-- A parameter list of types of the store, not too long to be counted in 64 bits. -/
structure Lists (store : Store) (params : ParamSet) : Prop where
  length_lt : params.types.length < UInt64.size
  lt_size : ∀ part ∈ params.types, part.index < store.nodes.size

/-- A store that grew out of a new one: builtin types come first, and everything is built from what
was there before it. -/
structure WellFormed (store : Store) : Prop where
  names : store.names.Closed
  builtins : builtinNodes.Extends store.nodes
  noParams : store.paramSet .empty = .ok .empty
  shapes : ∀ type node, store.node? type = some node → store.Fits type.index node.shape
  plain : ∀ type node, store.node? type = some node → Node.plain node.shape ∈ store.nodes
  sets : ∀ set params, store.paramSet set = .ok params → store.Lists params

theorem Extends.paramSet (h : old.Extends new) {set : ParamSetId} {params : ParamSet}
    (hs : old.paramSet set = .ok params) : new.paramSet set = .ok params :=
  paramSet_eq_ok.mpr (h.paramSets.get? (paramSet_eq_ok.mp hs))

theorem Fits.mono (h : old.Extends new) {bound bound' : Nat} (hb : bound ≤ bound')
    {shape : Shape TypeId ParamSetId PathId} (hf : old.Fits bound shape) :
    new.Fits bound' shape where
  base part hp := Nat.lt_of_lt_of_le (hf.base part hp) hb
  owner part hp := by
    obtain ⟨hlt, name, isStruct, hn⟩ := hf.owner part hp
    exact ⟨Nat.lt_of_lt_of_le hlt hb, name, isStruct, h.node? hn⟩
  params set hs := by
    obtain ⟨params, hp, hlt, hclosed⟩ := hf.params set hs
    exact ⟨params, h.paramSet hp, fun part hm => Nat.lt_of_lt_of_le (hlt part hm) hb, hclosed⟩

theorem Lists.mono (h : old.Extends new) {params : ParamSet} (hp : old.Lists params) :
    new.Lists params :=
  ⟨hp.length_lt, fun part hm => Nat.lt_of_lt_of_le (hp.lt_size part hm) h.nodes.size_le⟩

/-- A store grew into a well-formed one without completing anything. -/
structure Grows (old new : Store) : Prop where
  extends_ : old.Extends new
  definitions : new.definitions = old.definitions
  target : new.target = old.target
  wellFormed : new.WellFormed

theorem WellFormed.grows (h : store.WellFormed) : store.Grows store :=
  ⟨.refl store, rfl, rfl, h⟩

theorem Grows.trans {a b c : Store} (hab : a.Grows b) (hbc : b.Grows c) : a.Grows c :=
  ⟨hab.extends_.trans hbc.extends_, hbc.definitions.trans hab.definitions,
    hbc.target.trans hab.target, hbc.wellFormed⟩

/-- From a well-formed store, a store grew into another. -/
def Safe (old new : Store) : Prop := old.WellFormed → old.Grows new

instance : Std.Refl Safe := ⟨fun _ h => h.grows⟩

instance : Trans Safe Safe Safe where
  trans hab hbc := fun h => (hab h).trans (hbc (hab h).wellFormed)

theorem mem_builtinNodes {node : Node} :
    node ∈ builtinNodes ↔ ∃ type, node = .plain (.builtin type) := by
  simp [builtinNodes, Table.mem_def, Builtin.mem_all, eq_comm]

theorem WellFormed.node?_builtin (h : store.WellFormed) (type : Builtin) :
    store.node? (.builtin type) = some (.plain (.builtin type)) := by
  refine h.builtins.get? ?_
  simp [Table.get?, builtinNodes, TypeId.builtin, Builtin.all_slot]

theorem wellFormed_new (target : Target) : (Store.new target).WellFormed := by
  have hnodes : ∀ type node, (Store.new target).node? type = some node →
      ∃ builtin, node = .plain (.builtin builtin) :=
    fun type node h => mem_builtinNodes.mp (Table.mem_of_get? h)
  refine ⟨Names.closed_empty, .refl _, rfl, ?_, ?_, ?_⟩
  · intro type node h
    obtain ⟨builtin, rfl⟩ := hnodes type node h
    constructor <;> simp [Node.plain, Shape.base?, Shape.owner?, Shape.params?]
  · intro type node h
    obtain ⟨builtin, rfl⟩ := hnodes type node h
    exact Table.mem_of_get? h
  · intro set params h
    have hmem : params ∈ [Params.empty] := Table.mem_of_get? (paramSet_eq_ok.mp h)
    obtain rfl := List.mem_singleton.mp hmem
    exact ⟨by simp [Params.empty], by simp [Params.empty]⟩

/-! ### Entering types, parameter lists and names -/

/-- The store with a type entered. -/
def withNode (store : Store) (node : Node) : Store :=
  { store with nodes := store.nodes.insert node }

/-- The store with a parameter list entered. -/
def withParams (store : Store) (params : ParamSet) : Store :=
  { store with paramSets := store.paramSets.insert params }

theorem extends_withNode (store : Store) (node : Node) : store.Extends (store.withNode node) :=
  ⟨.refl _, Table.extends_insert _ _, .refl _, List.prefix_refl _⟩

theorem extends_withParams (store : Store) (params : ParamSet) :
    store.Extends (store.withParams params) :=
  ⟨.refl _, .refl _, Table.extends_insert _ _, List.prefix_refl _⟩

theorem node?_withNode (store : Store) (node : Node) :
    (store.withNode node).node? (store.idOf node) = some node :=
  Table.get?_insert_indexOf _ _

theorem paramSet_withParams (store : Store) (params : ParamSet) :
    (store.withParams params).paramSet ⟨store.paramSets.indexOf params⟩ = .ok params :=
  paramSet_eq_ok.mpr (Table.get?_insert_indexOf _ _)

/-- A type may be entered if its parts are there and it, or its unqualified form, is to be the
unqualified one. -/
theorem WellFormed.withNode (h : store.WellFormed) {node : Node}
    (hf : store.Fits store.nodes.size node.shape)
    (hp : node.qual = Qual.none ∨ Node.plain node.shape ∈ store.nodes) :
    (store.withNode node).WellFormed := by
  have hext := store.extends_withNode node
  refine ⟨h.names, ?_, h.noParams, ?_, ?_, ?_⟩
  · exact h.builtins.trans hext.nodes
  · intro type node' hn
    rcases Table.get?_insert_cases hn with hold | ⟨rfl, hle⟩
    · exact (h.shapes type node' hold).mono hext (Nat.le_refl _)
    · exact hf.mono hext hle
  · intro type node' hn
    rcases Table.get?_insert_cases hn with hold | ⟨rfl, _⟩
    · exact hext.nodes.mem (h.plain type node' hold)
    · rcases hp with hq | hmem
      · have : Node.plain node'.shape = node' := by
          rw [Node.plain, ← hq]
        rw [this]
        exact Table.mem_of_get? hn
      · exact hext.nodes.mem hmem
  · intro set params hs
    exact (h.sets set params hs).mono hext

/-- A parameter list may be entered if its types are there. -/
theorem WellFormed.withParams (h : store.WellFormed) {params : ParamSet} (hp : store.Lists params) :
    (store.withParams params).WellFormed := by
  have hext := store.extends_withParams params
  refine ⟨h.names, h.builtins, hext.paramSet h.noParams, ?_, h.plain, ?_⟩
  · intro type node hn
    exact (h.shapes type node hn).mono hext (Nat.le_refl _)
  · intro set params' hs
    rcases Table.get?_insert_cases (paramSet_eq_ok.mp hs) with hold | ⟨rfl, _⟩
    · exact (h.sets set params' (paramSet_eq_ok.mpr hold)).mono hext
    · exact hp.mono hext

/-- The parts of a type are parts of any later type. -/
theorem WellFormed.fits (h : store.WellFormed) {type : TypeId} {node : Node}
    (hn : store.node? type = some node) : store.Fits store.nodes.size node.shape :=
  (h.shapes type node hn).mono (.refl _) (Nat.le_of_lt (lt_size_of_node? hn))

theorem extends_withNames {names : Names} (h : store.names.Extends names) :
    store.Extends { store with names } :=
  ⟨h, .refl _, .refl _, List.prefix_refl _⟩

/-- Entering names keeps the store as it was otherwise. -/
theorem WellFormed.grows_withNames (hw : store.WellFormed) {names : Names}
    (h : store.names.Extends names) (hc : names.Closed) : store.Grows { store with names } :=
  ⟨extends_withNames h, rfl, rfl, hc, hw.builtins, hw.noParams, fun type node hn =>
    (hw.shapes type node hn).mono (extends_withNames h) (Nat.le_refl _), hw.plain,
    fun set params hs => (hw.sets set params hs).mono (extends_withNames h)⟩

/-- Neither the machine nor what was found complete has a part in being well-formed. -/
theorem WellFormed.grows_aside (hw : store.WellFormed) (target : Target) (settled : List TypeId) :
    store.Extends { store with target, settled } ∧
      Store.WellFormed { store with target, settled } := by
  have hext : store.Extends { store with target, settled } :=
    ⟨.refl _, .refl _, .refl _, List.prefix_refl _⟩
  exact ⟨hext, hw.names, hw.builtins, hw.noParams, fun type node hn =>
    (hw.shapes type node hn).mono hext (Nat.le_refl _), hw.plain,
    fun set params hs => (hw.sets set params hs).mono hext⟩

theorem WellFormed.grows_withNode (hw : store.WellFormed) {node : Node}
    (hf : store.Fits store.nodes.size node.shape)
    (hp : node.qual = Qual.none ∨ Node.plain node.shape ∈ store.nodes) :
    store.Grows (store.withNode node) :=
  ⟨store.extends_withNode node, rfl, rfl, hw.withNode hf hp⟩

theorem WellFormed.grows_withParams (hw : store.WellFormed) {params : ParamSet}
    (h : store.Lists params) : store.Grows (store.withParams params) :=
  ⟨store.extends_withParams params, rfl, rfl, hw.withParams h⟩

end Store

namespace Build

open Store

variable {α : Type}

/-! ### Requests for names and single entries -/

theorem run_query (question : Store → Except Failure α) (store : Store) :
    query question store = match question store with
      | .ok a => .ok a store
      | .error failure => .error failure store := by
  unfold query
  rw [run_bind_of_ok (run_get store)]
  cases question store <;> rfl

theorem run_query_eq_ok {question : Store → Except Failure α} {store store' : Store} {a : α} :
    query question store = .ok a store' ↔ question store = .ok a ∧ store' = store := by
  rw [run_query]
  cases question store <;> simp [eq_comm]

/-- Goes on with an answer, or stops with why there is none. -/
def answered {β : Type} (store : Store) (answer : Except Failure α)
    (next : α → EStateM.Result Failure Store β) : EStateM.Result Failure Store β :=
  match answer with
  | .ok a => next a
  | .error failure => .error failure store

theorem run_query_bind {β : Type} (question : Store → Except Failure α) (f : α → Build β)
    (store : Store) :
    (query question >>= f) store = answered store (question store) fun a => f a store := by
  rw [run_bind, run_query]
  cases question store <;> rfl

theorem answered_bind {β γ : Type} (store : Store) (answer : Except Failure α)
    (f : α → Except Failure β) (next : β → EStateM.Result Failure Store γ) :
    answered store (answer >>= f) next =
      answered store answer fun a => answered store (f a) next := by
  cases answer <;> rfl

theorem answered_pure {β : Type} (store : Store) (a : α)
    (next : α → EStateM.Result Failure Store β) : answered store (pure a) next = next a := rfl

theorem answered_congr {β : Type} {store : Store} {answer : Except Failure α}
    {f g : α → EStateM.Result Failure Store β} (h : ∀ a, answer = .ok a → f a = g a) :
    answered store answer f = answered store answer g := by
  cases answer with
  | ok a => exact h a rfl
  | error failure => rfl

/-- A question leaves the store as it is. -/
theorem keeps_query {R : Store → Store → Prop} [Std.Refl R] (question : Store → Except Failure α) :
    Keeps R (query question) := by
  intro store
  simp only [after, run_query]
  cases question store <;> exact Std.Refl.refl store

theorem keeps_naming {change : Names → α × Names}
    (hext : ∀ names : Names, names.Extends (change names).2)
    (hclosed : ∀ names : Names, names.Closed → (change names).2.Closed) :
    Keeps Safe (naming change) := fun store hw =>
  hw.grows_withNames (hext store.names) (hclosed store.names hw.names)

theorem keeps_intern (text : String) : Keeps Safe (intern text) :=
  keeps_naming (fun names => names.extends_intern text) fun _ h => h.intern text

theorem keeps_path (texts : List String) : Keeps Safe (path texts) :=
  keeps_naming (fun names => names.extends_path texts) fun _ h => (Names.path_spec h texts).1

theorem keeps_extend (parent : PathId) (keyword : Keyword) :
    Keeps Safe (extend parent keyword) := by
  intro store
  simp only [extend, after, run_bind, run_query]
  cases habove : store.names.segments parent with
  | error failure => exact Store.WellFormed.grows
  | ok above =>
      intro hw
      have hmem : above ∈ store.names.paths :=
        Table.mem_of_get? (Names.segments_eq_ok.mp habove)
      exact hw.grows_withNames (Names.extends_enter _ _) (hw.names.enter hmem keyword)

theorem keeps_child (parent : PathId) (text : String) : Keeps Safe (child parent text) :=
  (keeps_intern text).bind fun keyword => keeps_extend parent keyword

theorem run_enter (node : Node) (store : Store) :
    enter node store = .ok (store.idOf node) (store.withNode node) := rfl

theorem run_enterParams (params : ParamSet) (store : Store) :
    enterParams params store =
      .ok ⟨store.paramSets.indexOf params⟩ (store.withParams params) := rfl

/-- Asking for a type that is there gives its number and adds nothing. -/
theorem run_enter_of_node? {store : Store} {type : TypeId} {node : Node}
    (h : store.node? type = some node) : enter node store = .ok type store := by
  rw [run_enter, idOf_of_node? h, Store.withNode, Table.insert_of_get? h]

/-- Asking for a parameter list that is there gives its number and adds nothing. -/
theorem run_enterParams_of_paramSet {store : Store} {set : ParamSetId} {params : ParamSet}
    (h : store.paramSet set = .ok params) : enterParams params store = .ok set store := by
  have hget := paramSet_eq_ok.mp h
  rw [run_enterParams, Store.withParams, Table.insert_of_get? hget, Table.indexOf_of_get? hget]

/-- The variant of a type with given qualifiers. -/
theorem run_qualify_eq_ok {type type' : TypeId} {qual : Qual PathId} {store store' : Store} :
    qualify type qual store = .ok type' store' ↔
      ∃ node, store.node? type = some node ∧ type' = store.idOf ⟨node.shape, qual⟩ ∧
        store' = store.withNode ⟨node.shape, qual⟩ := by
  unfold qualify
  rw [run_bind_eq_ok]
  simp only [run_query_eq_ok, shape_eq_ok, run_enter]
  constructor
  · rintro ⟨_, _, ⟨⟨node, hn, rfl⟩, rfl⟩, h⟩
    cases h
    exact ⟨node, hn, rfl, rfl⟩
  · rintro ⟨node, hn, rfl, rfl⟩
    exact ⟨_, _, ⟨⟨node, hn, rfl⟩, rfl⟩, rfl⟩

/-- Asking for a variant that is there gives its number and adds nothing. -/
theorem run_qualify_of_node? {store : Store} {type variant : TypeId} {node : Node}
    {qual : Qual PathId} (hn : store.node? type = some node)
    (hv : store.node? variant = some ⟨node.shape, qual⟩) :
    qualify type qual store = .ok variant store := by
  unfold qualify
  rw [run_query_bind, shape_eq_ok.mpr ⟨node, hn, rfl⟩]
  exact run_enter_of_node? hv

theorem keeps_qualify (type : TypeId) (qual : Qual PathId) : Keeps Safe (qualify type qual) := by
  intro store
  simp only [qualify, after, run_bind, run_query]
  cases hs : store.shape type with
  | error failure => exact Store.WellFormed.grows
  | ok shape =>
      intro hw
      obtain ⟨node, hn, rfl⟩ := shape_eq_ok.mp hs
      have hf := hw.fits hn
      exact hw.grows_withNode hf (Or.inr (hw.plain type node hn))

theorem keeps_addQual (type : TypeId) (qual : Qual PathId) : Keeps Safe (addQual type qual) :=
  (keeps_query _).bind fun own => keeps_qualify type (own.union qual)

theorem run_check_bind {β : Type} (type : TypeId) (f : Unit → Build β) (store : Store) :
    (check type >>= f) store = answered store (store.node type) fun _ => f () store := by
  unfold check
  rw [bind_assoc, run_query_bind]
  rfl

theorem run_checkParams_bind {β : Type} (set : ParamSetId) (f : Unit → Build β) (store : Store) :
    (checkParams set >>= f) store = answered store (store.paramSet set) fun _ => f () store := by
  unfold checkParams
  rw [bind_assoc, run_query_bind]
  rfl

/-- A list of types is checked one by one. -/
theorem run_checkAll_bind {β : Type} (types : List TypeId) (f : Unit → Build β) (store : Store) :
    (types.forM check >>= f) store =
      answered store (types.mapM store.node) fun _ => f () store := by
  induction types with
  | nil => rfl
  | cons type types ih =>
      change ((check type >>= fun _ => types.forM check) >>= f) store = _
      rw [bind_assoc, run_check_bind, List.mapM_cons, answered_bind]
      refine answered_congr fun node _ => ?_
      rw [ih, answered_bind]
      rfl

/-- Types that were checked make a parameter list of the store. -/
theorem lists_of_mapM_node {store : Store} {types : List TypeId} {nodes : List Node}
    {variadic : Bool} (hl : types.length < UInt64.size) (h : types.mapM store.node = .ok nodes) :
    store.Lists ⟨types, variadic⟩ := by
  refine ⟨hl, fun part hm => ?_⟩
  obtain ⟨node, _, hn⟩ := forall₂_exists_right (mapM_eq_ok.mp h) hm
  exact lt_size_of_node? (node_eq_ok.mp hn)

theorem keeps_params {types : List TypeId} (hl : types.length < UInt64.size) (variadic : Bool) :
    Keeps Safe (params types variadic) := by
  intro store hw
  simp only [after, params, run_checkAll_bind]
  cases h : types.mapM store.node with
  | error failure => exact hw.grows
  | ok nodes => exact hw.grows_withParams (lists_of_mapM_node hl h)

end Build

end TypeGraph

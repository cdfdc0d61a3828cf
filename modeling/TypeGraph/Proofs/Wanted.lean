import TypeGraph.Proofs.Growth
import TypeGraph.Store.Request

/-!
Requests for types, and the shape that each asks for with its parameter list spelled out. Main
statements: a request checks what it names and then enters that shape (`TypeRequest.run_eq`), and
the type that it gives has that shape and no qualifiers (`TypeRequest.run_spec`).
-/

namespace TypeGraph

/-- A shape of numbered types with its parameter list spelled out. -/
abbrev WantedShape := Shape TypeId ParamSet PathId

namespace TypeRequest

/-- The shape that is asked for, or why the request is refused. The class of a member is taken
without its qualifiers. -/
def wanted (store : Store) : TypeRequest → Except Failure WantedShape
  | .array base extent => do
      let _ ← store.node base
      return .array base extent
  | .bitfield base bits offset => do
      let _ ← store.node base
      return .bitfield base bits offset
  | .pointer base => do
      let _ ← store.node base
      return .pointer base
  | .leftRef base => do
      let _ ← store.node base
      return .leftRef base
  | .rightRef base => do
      let _ ← store.node base
      return .rightRef base
  | .function ret params conv => do
      let _ ← store.node ret
      return .function ret (← store.paramSet params) conv
  | .memberFunction owner ret params conv => do
      let owner ← store.classOwner owner
      let _ ← store.node ret
      return .memberFunction owner ret (← store.paramSet params) conv
  | .memberPointer owner base => do
      let owner ← store.classOwner owner
      let _ ← store.node base
      return .memberPointer owner base
  | .tuple parts => do
      let _ ← parts.mapM store.node
      return .tuple ⟨parts, false⟩
  | .tupleOf set => do
      let params ← store.paramSet set
      if params.variadic then throw (.type .variadicTuple)
      return .tuple params
  | .classType name isStruct => return .classType name isStruct
  | .enumType name => return .enumType name

/-- A list that is handed over is counted in 64 bits. -/
def Countable : TypeRequest → Prop
  | .tuple parts => parts.length < UInt64.size
  | _ => True

end TypeRequest

namespace Store

variable {store : Store}

/-- A shape of the store with its parameter list spelled out. -/
def spelling (store : Store) (shape : Shape TypeId ParamSetId PathId) :
    Except Failure WantedShape :=
  shape.mapM pure store.paramSet id

theorem spelling_eq_ok {shape : Shape TypeId ParamSetId PathId} {wanted : WantedShape} :
    store.spelling shape = .ok wanted ↔
      Shape.Rel (· = ·) (fun set params => store.paramSet set = .ok params) (· = ·) shape
        wanted := by
  unfold spelling
  rw [Shape.mapM_eq_ok]
  simp only [pure_eq_ok, id]

theorem shape_eq_of_spelling_eq {a b : Shape TypeId ParamSetId PathId} {wanted : WantedShape}
    (ha : store.spelling a = .ok wanted) (hb : store.spelling b = .ok wanted) : a = b := by
  rw [spelling_eq_ok] at ha hb
  refine Shape.Rel.unique ?_ ?_ ?_ ha hb
  · rintro _ _ _ rfl rfl
    rfl
  · intro a b params h h'
    exact set_eq_of_params_eq h h'
  · rintro _ _ _ rfl rfl
    rfl

theorem Extends.spelling {old new : Store} (h : old.Extends new)
    {shape : Shape TypeId ParamSetId PathId} {wanted : WantedShape}
    (hs : old.spelling shape = .ok wanted) : new.spelling shape = .ok wanted :=
  spelling_eq_ok.mpr ((spelling_eq_ok.mp hs).imp (fun _ _ => id) (fun _ _ => h.paramSet)
    fun _ _ => id)

/-- A shape that may be entered once its parameter list is spelled out. -/
structure Admits (store : Store) (wanted : WantedShape) : Prop where
  base : ∀ part, wanted.base? = some part → part.index < store.nodes.size
  owner : ∀ part, wanted.owner? = some part →
    ∃ name isStruct, store.node? part = some (.plain (.classType name isStruct))
  params : ∀ params, wanted.params? = some params →
    store.Lists params ∧ (wanted.parts? = some params → params.variadic = false)

/-- Once its parameter list is entered, an admitted shape is one whose parts are there. -/
theorem Admits.fits {shape : Shape TypeId ParamSetId PathId} {wanted : WantedShape}
    (ha : store.Admits wanted) (hs : store.spelling shape = .ok wanted) :
    store.Fits store.nodes.size shape := by
  rw [spelling_eq_ok] at hs
  refine ⟨?_, ?_, ?_⟩
  · intro part hp
    obtain ⟨_, hw, rfl⟩ := hs.base? hp
    exact ha.base part hw
  · intro part hp
    obtain ⟨_, hw, rfl⟩ := hs.owner? hp
    obtain ⟨name, isStruct, hn⟩ := ha.owner part hw
    exact ⟨lt_size_of_node? hn, name, isStruct, hn⟩
  · intro set hp
    obtain ⟨params, hw, hset, hparts⟩ := hs.params? hp
    obtain ⟨hl, hclosed⟩ := ha.params params hw
    exact ⟨params, hset, hl.lt_size, fun h => hclosed (hparts h)⟩

theorem Admits.mono {old new : Store} (h : old.Extends new) {wanted : WantedShape}
    (ha : old.Admits wanted) : new.Admits wanted where
  base part hp := Nat.lt_of_lt_of_le (ha.base part hp) h.nodes.size_le
  owner part hp := by
    obtain ⟨name, isStruct, hn⟩ := ha.owner part hp
    exact ⟨name, isStruct, h.node? hn⟩
  params params hp := ⟨(ha.params params hp).1.mono h, (ha.params params hp).2⟩

/-- What a type of an accepted kind belongs to is that type without its qualifiers. -/
theorem unqualified_of_kind_eq_ok {accepts : Kind → Prop} [DecidablePred accepts]
    {refusal : Failure} {type owner : TypeId} :
    (store.kind type >>= fun kind =>
        if accepts kind then store.unqualified type else throw refusal) = .ok owner ↔
      ∃ node, store.node? type = some node ∧ accepts node.shape.kind ∧
        store.idOf (.plain node.shape) = owner := by
  rw [bind_eq_ok]
  simp only [kind_eq_ok]
  constructor
  · rintro ⟨_, ⟨node, hn, rfl⟩, h⟩
    split at h
    next hk =>
        obtain ⟨node', hn', hid⟩ := unqualified_eq_ok.mp h
        rw [hn] at hn'
        cases hn'
        exact ⟨node, hn, hk, hid⟩
    next => cases h
  · rintro ⟨node, hn, hk, hid⟩
    refine ⟨_, ⟨node, hn, rfl⟩, ?_⟩
    rw [if_pos hk]
    exact unqualified_eq_ok.mpr ⟨node, hn, hid⟩

theorem classOwner_eq_ok {type owner : TypeId} :
    store.classOwner type = .ok owner ↔
      ∃ node, store.node? type = some node ∧ node.shape.kind.isClass = true ∧
        store.idOf (.plain node.shape) = owner :=
  unqualified_of_kind_eq_ok

theorem shape_of_isClass {τ π ν : Type} {shape : Shape τ π ν} (h : shape.kind.isClass = true) :
    ∃ name isStruct, shape = .classType name isStruct := by
  cases shape with
  | classType name isStruct => exact ⟨name, isStruct, rfl⟩
  | builtin type => cases type <;> simp [Shape.kind, Builtin.kind, Kind.isClass] at h
  | _ => simp [Shape.kind, Kind.isClass] at h

theorem WellFormed.classOwner (hw : store.WellFormed) {type owner : TypeId}
    (h : store.classOwner type = .ok owner) :
    ∃ name isStruct, store.node? owner = some (.plain (.classType name isStruct)) := by
  obtain ⟨node, hn, hk, rfl⟩ := classOwner_eq_ok.mp h
  obtain ⟨name, isStruct, hs⟩ := shape_of_isClass hk
  exact ⟨name, isStruct, hs ▸ node?_idOf (hw.plain type node hn)⟩

end Store

namespace Build

open Store

/-- Enters a shape together with its parameter list. -/
def spelled (wanted : WantedShape) : Build TypeId := do
  plain (← wanted.mapM pure enterParams id)

theorem run_enterSpelling {store : Store} (hw : store.WellFormed) {wanted : WantedShape}
    (ha : store.Admits wanted) :
    ∃ shape store', (wanted.mapM pure enterParams id : Build _) store = .ok shape store' ∧
      store.Grows store' ∧ store'.spelling shape = .ok wanted := by
  have hsame : ∀ shape, store.spelling shape = .ok wanted →
      (wanted.mapM pure enterParams id : Build _) store = .ok shape store →
      ∃ shape store', (wanted.mapM pure enterParams id : Build _) store = .ok shape store' ∧
        store.Grows store' ∧ store'.spelling shape = .ok wanted :=
    fun shape hs hrun => ⟨shape, store, hrun, hw.grows, hs⟩
  -- Only functions and tuples enter a parameter list.
  have hlist : ∀ params, wanted.params? = some params →
      store.Grows (store.withParams params) ∧
        (store.withParams params).paramSet ⟨store.paramSets.indexOf params⟩ = .ok params :=
    fun params hp => ⟨hw.grows_withParams (ha.params params hp).1, store.paramSet_withParams params⟩
  cases wanted with
  | function ret params conv =>
      obtain ⟨hg, hs⟩ := hlist params rfl
      exact ⟨_, _, rfl, hg, spelling_eq_ok.mpr (.function conv rfl hs)⟩
  | memberFunction owner ret params conv =>
      obtain ⟨hg, hs⟩ := hlist params rfl
      exact ⟨_, _, rfl, hg, spelling_eq_ok.mpr (.memberFunction conv rfl rfl hs)⟩
  | tuple params =>
      obtain ⟨hg, hs⟩ := hlist params rfl
      exact ⟨_, _, rfl, hg, spelling_eq_ok.mpr (.tuple hs)⟩
  | builtin type => exact hsame (.builtin type) rfl rfl
  | array base extent => exact hsame (.array base extent) rfl rfl
  | bitfield base bits offset => exact hsame (.bitfield base bits offset) rfl rfl
  | pointer base => exact hsame (.pointer base) rfl rfl
  | leftRef base => exact hsame (.leftRef base) rfl rfl
  | rightRef base => exact hsame (.rightRef base) rfl rfl
  | memberPointer owner base => exact hsame (.memberPointer owner base) rfl rfl
  | classType name isStruct => exact hsame (.classType name isStruct) rfl rfl
  | enumType name => exact hsame (.enumType name) rfl rfl

theorem run_spelled {store : Store} (hw : store.WellFormed) {wanted : WantedShape}
    (ha : store.Admits wanted) :
    ∃ type store' shape, spelled wanted store = .ok type store' ∧ store.Grows store' ∧
      store'.node? type = some (.plain shape) ∧ store'.spelling shape = .ok wanted := by
  obtain ⟨shape, next, hrun, hg, hs⟩ := run_enterSpelling hw ha
  have hfits : next.Fits next.nodes.size shape := (ha.mono hg.extends_).fits hs
  have hg' : next.Grows (next.withNode (.plain shape)) :=
    hg.wellFormed.grows_withNode hfits (Or.inl rfl)
  refine ⟨_, _, shape, ?_, hg.trans hg', next.node?_withNode _, hg'.extends_.spelling hs⟩
  unfold spelled
  rw [run_bind_of_ok hrun]
  rfl

theorem run_spelled_of_node? {store : Store} {type : TypeId}
    {shape : Shape TypeId ParamSetId PathId} {wanted : WantedShape}
    (hn : store.node? type = some (.plain shape)) (hs : store.spelling shape = .ok wanted) :
    spelled wanted store = .ok type store := by
  have hrun : (wanted.mapM pure enterParams id : Build _) store = .ok shape store := by
    rw [spelling_eq_ok] at hs
    cases hs with
    | function conv hr hp =>
        subst hr
        simp only [Shape.mapM, run_bind, run_enterParams_of_paramSet hp, run_pure]
    | memberFunction conv ho hr hp =>
        subst ho hr
        simp only [Shape.mapM, run_bind, run_enterParams_of_paramSet hp, run_pure]
    | tuple hp => simp only [Shape.mapM, run_bind, run_enterParams_of_paramSet hp, run_pure]
    | _ => simp_all [Shape.mapM]
  unfold spelled
  rw [run_bind_of_ok hrun]
  exact run_enter_of_node? hn

end Build

namespace TypeRequest

open Build Store

/-- A request checks what it names and then enters the shape it asks for. -/
theorem run_eq (request : TypeRequest) (store : Store) :
    request.run store =
      answered store (request.wanted store) fun wanted => spelled wanted store := by
  cases request with
  | function ret set conv =>
      simp only [run, Build.function, wanted, run_check_bind, run_checkParams_bind, answered_bind,
        answered_pure]
      refine answered_congr fun _ _ => answered_congr fun params hp => ?_
      simp only [spelled, Shape.mapM, pure_bind, run_bind, run_enterParams_of_paramSet hp, run_pure]
  | memberFunction owner ret set conv =>
      simp only [run, Build.memberFunction, wanted, run_query_bind, run_check_bind,
        run_checkParams_bind, answered_bind, answered_pure]
      refine answered_congr fun _ _ => answered_congr fun _ _ => answered_congr fun params hp => ?_
      simp only [spelled, Shape.mapM, pure_bind, run_bind, run_enterParams_of_paramSet hp, run_pure]
  | tupleOf set =>
      simp only [run, Build.tupleOf, wanted, run_query_bind, answered_bind]
      refine answered_congr fun params hp => ?_
      cases params.variadic with
      | true => rfl
      | false =>
          change plain (.tuple set) store = spelled (.tuple params) store
          simp only [spelled, Shape.mapM, run_bind, run_enterParams_of_paramSet hp, run_pure]
  | tuple parts =>
      simp only [run, Build.tuple, Build.params, wanted, bind_assoc, run_checkAll_bind,
        answered_bind]
      rfl
  | classType name isStruct => rfl
  | enumType name => rfl
  | memberPointer owner base =>
      simp only [run, Build.memberPointer, wanted, run_query_bind, run_check_bind, answered_bind]
      rfl
  | array base extent =>
      simp only [run, Build.array, wanted, run_check_bind, answered_bind]
      rfl
  | bitfield base bits offset =>
      simp only [run, Build.bitfield, wanted, run_check_bind, answered_bind]
      rfl
  | pointer base =>
      simp only [run, Build.pointer, wanted, run_check_bind, answered_bind]
      rfl
  | leftRef base =>
      simp only [run, Build.leftRef, wanted, run_check_bind, answered_bind]
      rfl
  | rightRef base =>
      simp only [run, Build.rightRef, wanted, run_check_bind, answered_bind]
      rfl

theorem wanted_admits {request : TypeRequest} (hr : request.Countable) {store : Store}
    (hw : store.WellFormed) {wanted : WantedShape} (h : request.wanted store = .ok wanted) :
    store.Admits wanted := by
  have hlt : ∀ {type : TypeId} {node : Node}, store.node type = .ok node →
      type.index < store.nodes.size := fun hn => lt_size_of_node? (node_eq_ok.mp hn)
  have hbase : ∀ {shape : WantedShape} {type : TypeId} {node : Node}, store.node type = .ok node →
      shape.base? = some type → shape.owner? = none → shape.params? = none →
      store.Admits shape := by
    intro shape type node hn hb ho hp
    constructor <;> simp_all
  cases request <;> simp only [TypeRequest.wanted, bind_eq_ok, pure_eq_ok] at h
  case array | bitfield | pointer | leftRef | rightRef =>
      obtain ⟨_, hn, rfl⟩ := h
      exact hbase hn rfl rfl rfl
  case function ret set conv =>
      obtain ⟨_, hn, params, hp, rfl⟩ := h
      constructor <;> simp [Shape.base?, Shape.owner?, Shape.params?, Shape.parts?, hlt hn,
        hw.sets set params hp]
  case memberFunction owner ret set conv =>
      obtain ⟨_, ho, _, hn, params, hp, rfl⟩ := h
      obtain ⟨name, isStruct, hclass⟩ := hw.classOwner ho
      refine ⟨?_, ?_, ?_⟩
      · rintro _ ⟨⟩
        exact hlt hn
      · rintro _ ⟨⟩
        exact ⟨name, isStruct, hclass⟩
      · rintro _ ⟨⟩
        exact ⟨hw.sets set params hp, by simp [Shape.parts?]⟩
  case memberPointer owner base =>
      obtain ⟨_, ho, _, hn, rfl⟩ := h
      obtain ⟨name, isStruct, hclass⟩ := hw.classOwner ho
      refine ⟨?_, ?_, by simp [Shape.params?]⟩
      · rintro _ ⟨⟩
        exact hlt hn
      · rintro _ ⟨⟩
        exact ⟨name, isStruct, hclass⟩
  case tuple parts =>
      obtain ⟨nodes, hn, rfl⟩ := h
      have hl : store.Lists ⟨parts, false⟩ := lists_of_mapM_node hr hn
      constructor <;> simp [Shape.base?, Shape.owner?, Shape.params?, Shape.parts?, hl]
  case tupleOf set =>
      obtain ⟨params, hp, h⟩ := h
      cases hv : params.variadic with
      | true =>
          rw [hv] at h
          cases h
      | false =>
          obtain rfl : .tuple params = wanted := by simpa [hv] using h
          constructor <;> simp [Shape.base?, Shape.owner?, Shape.params?, Shape.parts?, hv,
            hw.sets set params hp]
  case classType | enumType =>
      subst h
      constructor <;> simp [Shape.base?, Shape.owner?, Shape.params?]

/-- A request that is not refused gives a type of the shape asked for, without qualifiers. -/
theorem run_spec {request : TypeRequest} (hr : request.Countable) {store store' : Store}
    (hw : store.WellFormed) {type : TypeId} (h : request.run store = .ok type store') :
    store.Grows store' ∧ ∃ wanted shape, request.wanted store = .ok wanted ∧
      store'.node? type = some (.plain shape) ∧ store'.spelling shape = .ok wanted := by
  rw [run_eq] at h
  cases hwant : request.wanted store with
  | error failure =>
      rw [hwant] at h
      cases h
  | ok wanted =>
      rw [hwant] at h
      obtain ⟨type', next, shape, hrun, hg, hn, hs⟩ :=
        run_spelled hw (wanted_admits hr hw hwant)
      have h' : spelled wanted store = .ok type store' := h
      rw [hrun] at h'
      cases h'
      exact ⟨hg, wanted, shape, rfl, hn, hs⟩

theorem keeps_run {request : TypeRequest} (hr : request.Countable) : Keeps Safe request.run := by
  intro store hw
  simp only [after, run_eq]
  cases hwant : request.wanted store with
  | error failure => exact hw.grows
  | ok wanted =>
      obtain ⟨type, next, shape, hrun, hg, _⟩ := run_spelled hw (wanted_admits hr hw hwant)
      simp only [answered, hrun]
      exact hg

end TypeRequest

end TypeGraph

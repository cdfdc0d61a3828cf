import TypeGraph.Proofs.Deferring

/-!
Types whose size varies. Main statements: a size that is refused because it varies names a
variable-length array that the type is laid out from (`Store.varies_of_size`); a complete type has
sizes that are left to run time unless what its arrays are made of varies
(`Store.Reachable.deferred_unless_varies`); and a type whose size varies is announced as variably
modified unless a tuple hides the array (`Store.Reachable.announced_unless_hidden`).
-/

namespace TypeGraph

theorem blame_eq_error {α : Type} {answer : Except Failure α} {whole : TypeId} {failure : Failure}
    (h : ∀ part, failure ≠ .type (.incomplete part)) :
    answer.mapError (·.blame whole) = .error failure ↔ answer = .error failure := by
  cases answer with
  | ok a => simp [Except.mapError]
  | error own =>
      rw [Except.mapError, Except.error.injEq, Except.error.injEq]
      by_cases hown : ∃ part, own = .type (.incomplete part)
      · obtain ⟨part, rfl⟩ := hown
        exact ⟨fun hf => absurd hf.symm (h whole), fun hf => absurd hf.symm (h part)⟩
      · rw [Failure.blame]
        exact fun part hpart => hown ⟨part, hpart⟩

namespace Store

variable {store : Store} {type part array : TypeId}

/-! ### Where a size varies -/

/-- A type is laid out from a variable-length array: it is that array, or the elements of a fixed
array, the unit of a bit-field or a component of a tuple are laid out from it. -/
inductive Varies (store : Store) (array : TypeId) : TypeId → Prop where
  | self {base : TypeId} {expr : ExprId} {own : Qual PathId}
      (node : store.node? array = some ⟨.array base (.variable expr), own⟩) :
      Varies store array array
  | element {type base : TypeId} {count : Count} {own : Qual PathId}
      (node : store.node? type = some ⟨.array base (.fixed count), own⟩)
      (inside : Varies store array base) : Varies store array type
  | unit {type base : TypeId} {bits offset : UInt32} {own : Qual PathId}
      (node : store.node? type = some ⟨.bitfield base bits offset, own⟩)
      (inside : Varies store array base) : Varies store array type
  | component {type part : TypeId} {set : ParamSetId} {params : ParamSet} {own : Qual PathId}
      (node : store.node? type = some ⟨.tuple set, own⟩)
      (params_eq : store.paramSet set = .ok params) (mem : part ∈ params.types)
      (inside : Varies store array part) : Varies store array type

theorem classBody_eq_error {name : PathId} {isStruct : Bool} {own : Qual PathId}
    (hn : store.node? type = some ⟨.classType name isStruct, own⟩) {failure : Failure}
    (h : store.classBody type = .error failure) : failure = .type (.incomplete type) := by
  have howner := classOwner_eq_ok.mpr ⟨_, hn, by cases isStruct <;> rfl, rfl⟩
  rw [Store.classBody, howner, ok_bind, orFail_eq_error] at h
  exact h.2.symm

theorem enumBody_eq_error {name : PathId} {own : Qual PathId}
    (hn : store.node? type = some ⟨.enumType name, own⟩) {failure : Failure}
    (h : store.enumBody type = .error failure) : failure = .type (.incomplete type) := by
  obtain ⟨owner, howner⟩ := exists_enumOwner hn
  rw [Store.enumBody, howner, ok_bind, orFail_eq_error] at h
  exact h.2.symm

theorem StoresEnums.enumStorage_eq_error (hs : store.StoresEnums) {name : PathId}
    {own : Qual PathId} (hn : store.node? type = some ⟨.enumType name, own⟩) {failure : Failure}
    (h : store.enumStorage type = .error failure) : failure = .type (.incomplete type) := by
  cases hb : store.enumBody type with
  | error refusal =>
      obtain rfl := enumBody_eq_error hn hb
      rw [enumStorage, hb] at h
      cases h
      rfl
  | ok body =>
      obtain ⟨builtin, he, _⟩ := hs.storage hb
      cases he.symm.trans h

/-- A size that is refused because it varies names the array that it varies with. -/
theorem varies_of_size (hw : store.WellFormed) (hs : store.StoresEnums) (hh : store.Holds type)
    (h : store.size type = .error (.type (.variableSize array))) : store.Varies array type := by
  revert h
  refine hw.induct (P := fun type => store.size type = .error (.type (.variableSize array)) →
    store.Varies array type) (fun type seen hv ih h => ?_) hh
  obtain ⟨⟨shape, own⟩, hn⟩ := holds_of_view hv
  have hrel := rel_of_view hn hv
  rw [Store.size, hv, ok_bind] at h
  cases hrel with
  | builtin builtin => simp [orFail_eq_error] at h
  | @array base below extent hbase =>
      subst hbase
      cases extent with
      | fixed count =>
          rcases bind_eq_error.mp h with h | ⟨size, _, h⟩
          · exact .element hn (ih below h)
          · simp [orFail_eq_error] at h
      | incomplete | unspecified => cases h
      | _ =>
          cases h
          exact .self hn
  | @bitfield base below bits offset hbase =>
      subst hbase
      rcases bind_eq_error.mp h with h | ⟨unit, _, h⟩
      · exact .unit hn (ih below h)
      · dsimp only at h
        split at h
        · cases h
        · simp [orFail_eq_error] at h
  | @pointer _ below _ | @leftRef _ below _ | @rightRef _ below _ =>
      obtain ⟨size, hsize⟩ := exists_pointerSize ((holds_of_view hv).below below)
      cases hsize.symm.trans h
  | memberPointer _ _ | function _ _ _ | memberFunction _ _ _ _ => cases h
  | tuple hparts =>
      obtain ⟨params, hp, hrel⟩ := hparts
      rcases bind_eq_error.mp h with h | ⟨total, _, h⟩
      · obtain ⟨total, below, hm, h⟩ := exists_of_foldlM_eq_error h
        obtain ⟨_, hmem, rfl⟩ := forall₂_exists_right hrel.types.flip hm
        rcases bind_eq_error.mp h with h | ⟨size, _, h⟩
        · exact .component hn hp hmem (ih below ((blame_eq_error (by simp)).mp h))
        · simp [orFail_eq_error] at h
      · simp [orFail_eq_error] at h
  | classType isStruct _ =>
      rcases bind_eq_error.mp h with h | ⟨body, _, h⟩
      · cases classBody_eq_error hn h
      · cases h
  | enumType _ =>
      rcases bind_eq_error.mp h with h | ⟨builtin, _, h⟩
      · cases hs.enumStorage_eq_error hn h
      · simp [orFail_eq_error] at h

/-! ### Sizes of complete types that are left to run time -/

/-- A size that is left to run time, or that is too large to be. -/
def Deferred (answer : Except Failure SizeExpr) : Prop :=
  (∃ deferred, answer = .ok deferred) ∨ ∃ part, answer = .error (.type (.sizeOverflow part))

theorem Deferred.orFail (type : TypeId) (value : Option SizeExpr) :
    Deferred (orFail (.type (.sizeOverflow type)) value) := by
  cases value with
  | some deferred => exact Or.inl ⟨deferred, rfl⟩
  | none => exact Or.inr ⟨type, rfl⟩

theorem Deferred.bind {answer : Except Failure SizeExpr}
    {f : SizeExpr → Except Failure SizeExpr} (h : Deferred answer) (hf : ∀ a, Deferred (f a)) :
    Deferred (answer >>= f) := by
  rcases h with ⟨deferred, rfl⟩ | ⟨part, rfl⟩
  · exact hf deferred
  · exact Or.inr ⟨part, rfl⟩

/-- The queries for the size of a type in bytes, in pointer units and in words that is left to run
time. -/
def deferredAnswers (store : Store) (type : TypeId) : List (Except Failure SizeExpr) :=
  [store.deferredSize type, store.deferredPoints type, store.deferredWords type]

theorem deferred_of_deferredSize (h : Deferred (store.deferredSize type)) :
    ∀ answer ∈ store.deferredAnswers type, Deferred answer := by
  have hwords : Deferred (store.deferredWords type) := by
    rcases h with ⟨deferred, h⟩ | ⟨part, h⟩
    · obtain ⟨words, hw, _⟩ := deferredWords_of_ok h
      exact Or.inl ⟨words, hw⟩
    · exact Or.inr ⟨part, by rw [Store.deferredWords, h]; rfl⟩
  simp [deferredAnswers, deferredPoints_eq, h, hwords]

theorem refused_of_deferredSize {failure : Failure} (h : store.deferredSize type = .error failure) :
    ∀ answer ∈ store.deferredAnswers type, answer = .error failure := by
  simp [deferredAnswers, deferredPoints_eq, Store.deferredWords, h, bind, Except.bind]

/-- A complete type is made of elements that are complete and no arrays. Its size is left to run
time if they have one, and refused as theirs is otherwise. -/
structure MadeOf (store : Store) (type element : TypeId) : Prop where
  element_eq : store.arrayElement type = .ok element
  noArray : ∃ node, store.node? element = some node ∧ node.shape.extent? = none
  complete : store.isComplete element = .ok true
  deferred : ∀ size, store.size element = .ok size → Deferred (store.deferredSize type)
  refused : ∀ failure, store.size element = .error failure →
    store.deferredSize type = .error failure

theorem MadeOf.dimension {base : Below type} {extent : Extent} {element : TypeId}
    (hv : store.view type = .ok (.array base extent)) (he : extent.isComplete = true)
    (h : store.MadeOf base.type element) : store.MadeOf type element where
  element_eq := by
    rw [Store.arrayElement, hv]
    exact h.element_eq
  noArray := h.noArray
  complete := h.complete
  deferred size hsize := by
    rw [Store.deferredSize, hv, ok_bind]
    cases extent with
    | incomplete | unspecified => cases he
    | _ => exact (h.deferred size hsize).bind fun _ => .orFail type _
  refused failure hfailure := by
    rw [Store.deferredSize, hv, ok_bind]
    cases extent with
    | incomplete | unspecified => cases he
    | _ =>
        simp only [h.refused failure hfailure]
        rfl

theorem WellFormed.exists_madeOf (hw : store.WellFormed) (hh : store.Holds type)
    (hc : store.isComplete type = .ok true) : ∃ element, store.MadeOf type element := by
  revert hc
  refine hw.induct (P := fun type => store.isComplete type = .ok true →
    ∃ element, store.MadeOf type element) (fun type seen hv ih hc => ?_) hh
  obtain ⟨node, hn⟩ := holds_of_view hv
  have hextent := (rel_of_view hn hv).extent?_eq
  have hself := hc
  rw [Store.isComplete, hv, ok_bind] at hc
  cases seen with
  | array base extent =>
      cases he : extent.isComplete with
      | false => simp [he] at hc
      | true =>
          obtain ⟨element, hmade⟩ := ih base (by simpa [he] using hc)
          exact ⟨element, .dimension hv he hmade⟩
  | _ =>
      refine ⟨type, ?_, ⟨node, hn, hextent⟩, hself, fun size hsize => ?_, fun failure hs => ?_⟩
      · rw [Store.arrayElement, hv]
        rfl
      · rw [Store.deferredSize, hv, ok_bind]
        exact Or.inl ⟨.const size, by simp only [hsize]; rfl⟩
      · rw [Store.deferredSize, hv, ok_bind]
        simp only [hs]
        rfl

theorem Varies.kind_eq (h : store.Varies array type) {node : Node}
    (hn : store.node? type = some node) (he : node.shape.extent? = none) :
    node.shape.kind = .bitfield ∨ node.shape.kind = .tuple := by
  cases h with
  | self hself | element hself _ =>
      cases hn.symm.trans hself
      cases he
  | unit hself _ =>
      cases hn.symm.trans hself
      exact Or.inl rfl
  | component hself _ _ _ =>
      cases hn.symm.trans hself
      exact Or.inr rfl

/-- A complete type has sizes that are left to run time, or they are too large, unless the type is
made of bit-fields or tuples that vary: for those all three queries are refused. -/
theorem Reachable.deferred_unless_varies (h : store.Reachable)
    (hc : outcome (Build.isComplete type) store = .ok true) : ∃ element node,
      store.arrayElement type = .ok element ∧ store.node? element = some node ∧
      ((∀ array, store.size element ≠ .error (.type (.variableSize array))) →
        ∀ answer ∈ store.deferredAnswers type, Deferred answer) ∧
      ∀ array, store.size element = .error (.type (.variableSize array)) →
        (node.shape.kind = .bitfield ∨ node.shape.kind = .tuple) ∧ store.Varies array element ∧
        ∀ answer ∈ store.deferredAnswers type,
          answer = .error (.type (.variableSize array)) := by
  rw [h.truthful.outcome_isComplete] at hc
  have hw := h.wellFormed
  have hh : store.Holds type := by
    rw [Store.isComplete] at hc
    obtain ⟨seen, hv, _⟩ := bind_eq_ok.mp hc
    exact holds_of_view hv
  obtain ⟨element, hmade⟩ := hw.exists_madeOf hh hc
  obtain ⟨node, hn, hnoArray⟩ := hmade.noArray
  refine ⟨element, node, hmade.element_eq, hn, fun hsteady => ?_, fun array hvaries => ?_⟩
  · apply deferred_of_deferredSize
    rcases (h.storesEnums.measured hmade.complete).cases with
      ⟨size, hs⟩ | ⟨array, hs⟩ | ⟨part, hs⟩
    · exact hmade.deferred size hs
    · exact absurd hs (hsteady array)
    · exact Or.inr ⟨part, hmade.refused _ hs⟩
  · have hpath := varies_of_size hw h.storesEnums ⟨node, hn⟩ hvaries
    exact ⟨hpath.kind_eq hn hnoArray, hpath, refused_of_deferredSize (hmade.refused _ hvaries)⟩

/-- Two rows of as many integers as are asked for at run time have sizes that are left to it. -/
theorem Reachable.deferred_unless_varies_rows :
    let int : TypeId := .builtin (.int ⟨.int, true⟩)
    let row : TypeId := ⟨Builtin.all.length⟩
    let rows : TypeId := ⟨Builtin.all.length + 1⟩
    let store := (Store.new .wide).afterAll
      [.enter (.array int (.variable ⟨3⟩)), .enter (.array row (.fixed 2))]
    store.Reachable ∧ outcome (Build.isComplete rows) store = .ok true ∧
      ∀ answer ∈ store.deferredAnswers rows, Deferred answer := by
  intro int row rows store
  have hr : store.Reachable := (reachable_new .wide).afterAll (by
    simp [Request.Countable, TypeRequest.Countable])
  have hc : outcome (Build.isComplete rows) store = .ok true := by decide +kernel
  obtain ⟨element, node, he, _, hsteady, _⟩ := hr.deferred_unless_varies hc
  have hint : store.arrayElement rows = .ok int := by decide +kernel
  have hsize : store.size int = .ok 4 := by decide +kernel
  cases hint.symm.trans he
  exact ⟨hr, hc, hsteady fun array hvaries => by cases hsize.symm.trans hvaries⟩

/-- A tuple of one such row is complete and has no size that is left to run time, although it could
have that of the row; nor has a bit-field over the row. -/
theorem refused_complete_tuple :
    let int : TypeId := .builtin (.int ⟨.int, true⟩)
    let row : TypeId := ⟨Builtin.all.length⟩
    let tuple : TypeId := ⟨Builtin.all.length + 1⟩
    let field : TypeId := ⟨Builtin.all.length + 2⟩
    let store := (Store.new .wide).afterAll [.enter (.array int (.variable ⟨3⟩)),
      .enter (.tuple [row]), .enter (.bitfield row 3 0)]
    store.Reachable ∧ ∀ type ∈ [tuple, field],
      outcome (Build.isComplete type) store = .ok true ∧ ∀ answer ∈ store.deferredAnswers type,
        answer = .error (.type (.variableSize row)) ∧ ¬ Deferred answer := by
  intro int row tuple field store
  have hr : store.Reachable := (reachable_new .wide).afterAll (by
    simp [Request.Countable, TypeRequest.Countable, UInt64.size])
  have hall : ∀ type ∈ [tuple, field], outcome (Build.isComplete type) store = .ok true ∧
      ∀ answer ∈ store.deferredAnswers type, answer = .error (.type (.variableSize row)) := by
    decide +kernel
  refine ⟨hr, fun type hm => ⟨(hall type hm).1, fun answer ha => ?_⟩⟩
  have hrefused := (hall type hm).2 answer ha
  refine ⟨hrefused, ?_⟩
  rintro (⟨deferred, hd⟩ | ⟨part, hd⟩)
  · cases hrefused.symm.trans hd
  · cases hrefused.symm.trans hd

/-! ### Announcing what varies -/

/-- A variable-length array that a type is laid out from is hidden by a tuple: only fixed arrays and
bit-fields are around that tuple. -/
inductive Hides (store : Store) (array : TypeId) : TypeId → Prop where
  | tuple {type : TypeId} {set : ParamSetId} {own : Qual PathId}
      (node : store.node? type = some ⟨.tuple set, own⟩) (inside : store.Varies array type) :
      Hides store array type
  | element {type base : TypeId} {count : Count} {own : Qual PathId}
      (node : store.node? type = some ⟨.array base (.fixed count), own⟩)
      (inside : Hides store array base) : Hides store array type
  | unit {type base : TypeId} {bits offset : UInt32} {own : Qual PathId}
      (node : store.node? type = some ⟨.bitfield base bits offset, own⟩)
      (inside : Hides store array base) : Hides store array type

theorem Varies.announced (hw : store.WellFormed) (h : store.Varies array type) :
    store.isVariablyModified type = .ok true ∨
      store.isVariablyModified type = .ok false ∧ store.Hides array type := by
  induction h with
  | self hn =>
      obtain ⟨below, rfl, hv⟩ := view_array hw hn
      left
      rw [Store.isVariablyModified, hv]
      rfl
  | @element type base count own hn _ ih =>
      obtain ⟨below, rfl, hv⟩ := view_array hw hn
      have hsame : store.isVariablyModified type = store.isVariablyModified below.type := by
        rw [Store.isVariablyModified, hv]
        rfl
      rw [hsame]
      exact ih.imp_right (And.imp_right (.element hn))
  | @unit type base bits offset own hn _ ih =>
      obtain ⟨below, rfl, hv⟩ := view_bitfield hw hn
      have hsame : store.isVariablyModified type = store.isVariablyModified below.type := by
        rw [Store.isVariablyModified, hv]
        rfl
      rw [hsame]
      exact ih.imp_right (And.imp_right (.unit hn))
  | @component type part set params own hn hp hm hpart _ =>
      obtain ⟨seen, hv⟩ := hw.view hn
      right
      refine ⟨?_, .tuple hn (.component hn hp hm hpart)⟩
      cases rel_of_view hn hv with
      | tuple _ =>
          rw [Store.isVariablyModified, hv]
          rfl

theorem announced_of_deferredSize {deferred : SizeExpr}
    (h : store.deferredSize type = .ok deferred) (hd : deferred.isConst = false) :
    store.isVariablyModified type = .ok true := by
  induction hi : type.index using Nat.strongRecOn generalizing type deferred with
  | _ i ih =>
      subst hi
      rw [Store.deferredSize] at h
      obtain ⟨seen, hv, h⟩ := bind_eq_ok.mp h
      rw [Store.isVariablyModified, hv, ok_bind]
      cases seen with
      | array base extent =>
          cases extent with
          | fixed count =>
              obtain ⟨part, hpart, h⟩ := bind_eq_ok.mp h
              refine ih base.type.index base.older hpart ?_ rfl
              cases part with
              | const value =>
                  obtain ⟨product, _, rfl⟩ := Option.map_eq_some_iff.mp (orFail_eq_ok.mp h)
                  cases hd
              | _ => rfl
          | incomplete | unspecified => cases h
          | _ => rfl
      | _ =>
          obtain ⟨size, _, h⟩ := bind_eq_ok.mp h
          cases h
          cases hd

/-- A type with a size that is not constant is announced as variably modified. A type whose size is
refused because it varies is laid out from the array that the refusal names, and is announced too
unless a tuple hides the array. -/
theorem Reachable.announced_unless_hidden (h : store.Reachable) (hh : store.Holds type) :
    (∀ deferred, store.deferredSize type = .ok deferred → deferred.isConst = false →
      store.isVariablyModified type = .ok true) ∧
    ∀ array, store.size type = .error (.type (.variableSize array)) →
      store.Varies array type ∧ (store.isVariablyModified type = .ok true ∨
        store.isVariablyModified type = .ok false ∧ store.Hides array type) := by
  refine ⟨fun deferred hd hc => announced_of_deferredSize hd hc, fun array hvaries => ?_⟩
  have hpath := varies_of_size h.wellFormed h.storesEnums hh hvaries
  exact ⟨hpath, hpath.announced h.wellFormed⟩

/-- A bit-field over a row of as many integers as are asked for at run time is announced, by its
size, for it is no tuple. -/
theorem Reachable.announced_unless_hidden_field :
    let int : TypeId := .builtin (.int ⟨.int, true⟩)
    let row : TypeId := ⟨Builtin.all.length⟩
    let field : TypeId := ⟨Builtin.all.length + 1⟩
    let store := (Store.new .wide).afterAll
      [.enter (.array int (.variable ⟨3⟩)), .enter (.bitfield row 3 0)]
    store.Reachable ∧ store.Holds field ∧ store.Varies row field ∧
      store.isVariablyModified field = .ok true := by
  intro int row field store
  have hr : store.Reachable := (reachable_new .wide).afterAll (by
    simp [Request.Countable, TypeRequest.Countable])
  have hh : store.Holds field := node?_of_lt (by decide +kernel)
  have hvaries : store.size field = .error (.type (.variableSize row)) := by decide +kernel
  have hm : store.isVariablyModified field ≠ .ok false := by decide +kernel
  obtain ⟨hpath, hannounced | ⟨hnot, _⟩⟩ := (hr.announced_unless_hidden hh).2 row hvaries
  · exact ⟨hr, hh, hpath, hannounced⟩
  · exact absurd hnot hm

/-- A tuple hides a row of as many integers as are asked for at run time: its size is refused
because it varies, and it is not announced as variably modified. -/
theorem unannounced_tuple :
    let int : TypeId := .builtin (.int ⟨.int, true⟩)
    let row : TypeId := ⟨Builtin.all.length⟩
    let tuple : TypeId := ⟨Builtin.all.length + 1⟩
    let store := (Store.new .wide).afterAll
      [.enter (.array int (.variable ⟨3⟩)), .enter (.tuple [row])]
    store.Reachable ∧ store.size tuple = .error (.type (.variableSize row)) ∧
      store.isVariablyModified row = .ok true ∧ store.isVariablyModified tuple = .ok false := by
  intro int row tuple store
  have hr : store.Reachable := (reachable_new .wide).afterAll (by
    simp [Request.Countable, TypeRequest.Countable, UInt64.size])
  exact ⟨hr, by decide +kernel⟩

end Store

end TypeGraph

import TypeGraph.Proofs.Sized

/-!
Bodies are fixed once. Main statements: a draft that is refused leaves the store as it was
(`Store.completeBody_eq_type_error`), one that is accepted adds its body
(`Build.completion_completeBody`), and a class or enum that has a body is never opened or completed
again (`Store.HasOpened.completes_once`).
-/

namespace TypeGraph

/-- The class or enum that a body is for. -/
def OpenBody.type : OpenBody → TypeId
  | .ofClass draft => draft.type
  | .ofEnum draft _ => draft.type

namespace Store

variable {store old new : Store} {body : OpenBody} {asked owner type : TypeId}

/-! ### What a body is for -/

/-- The unqualified type that a type is, refused if a body like this one is not for such a type. -/
def ownerFor (store : Store) (body : OpenBody) (asked : TypeId) : Except Failure TypeId :=
  match body with
  | .ofClass _ => store.classOwner asked
  | .ofEnum _ _ => store.enumOwner asked

/-- Whether a class or enum has a body of the sort of this one. -/
def isFixed (store : Store) (body : OpenBody) (type : TypeId) : Bool :=
  match body with
  | .ofClass _ => (store.classBody? type).isSome
  | .ofEnum _ _ => (store.enumBody? type).isSome

/-- Opens a draft of the sort of this body, and tells which class or enum it is of. -/
def openFor (store : Store) (body : OpenBody) (asked : TypeId) : Except Failure TypeId :=
  match body with
  | .ofClass _ => do return (← store.openClass asked).type
  | .ofEnum _ _ => do return (← store.openEnum asked).type

theorem openFor_eq_ok :
    store.openFor body asked = .ok type ↔
      store.ownerFor body asked = .ok type ∧ store.isFixed body type = false := by
  cases body with
  | ofClass draft =>
      simp only [openFor, ownerFor, isFixed, bind_eq_ok, openClass_eq_ok, pure_eq_ok,
        Option.isSome_eq_false_iff, Option.isNone_iff_eq_none]
      constructor
      · rintro ⟨_, ⟨owner, ho, hb, rfl⟩, rfl⟩
        exact ⟨ho, hb⟩
      · rintro ⟨ho, hb⟩
        exact ⟨_, ⟨type, ho, hb, rfl⟩, rfl⟩
  | ofEnum draft base =>
      simp only [openFor, ownerFor, isFixed, bind_eq_ok, openEnum_eq_ok, pure_eq_ok,
        Option.isSome_eq_false_iff, Option.isNone_iff_eq_none]
      constructor
      · rintro ⟨_, ⟨owner, ho, hb, rfl⟩, rfl⟩
        exact ⟨ho, hb⟩
      · rintro ⟨ho, hb⟩
        exact ⟨_, ⟨type, ho, hb, rfl⟩, rfl⟩

/-- What has a body is not opened again. -/
theorem openFor_of_isFixed (ho : store.ownerFor body asked = .ok owner)
    (hf : store.isFixed body owner = true) :
    store.openFor body asked = .error (.type (.alreadyComplete owner)) := by
  cases body with
  | ofClass draft =>
      simp only [ownerFor, isFixed] at ho hf
      rw [openFor, openClass, ho, ok_bind, if_pos hf]
      rfl
  | ofEnum draft base =>
      simp only [ownerFor, isFixed] at ho hf
      rw [openFor, openEnum, ho, ok_bind, if_pos hf]
      rfl

/-- The class or enum that a type is has itself for one. -/
theorem WellFormed.ownerFor_self (hw : store.WellFormed)
    (h : store.ownerFor body asked = .ok owner) : store.ownerFor body owner = .ok owner := by
  cases body with
  | ofClass draft =>
      obtain ⟨name, isStruct, hn⟩ := hw.classOwner h
      exact classOwner_of_node? hn
  | ofEnum draft base =>
      obtain ⟨name, hn⟩ := hw.enumOwner h
      exact enumOwner_of_node? hn

theorem Extends.ownerFor (h : old.Extends new) (hw : old.WellFormed)
    (ho : old.ownerFor body asked = .ok owner) : new.ownerFor body asked = .ok owner := by
  cases body with
  | ofClass draft => exact h.classOwner hw ho
  | ofEnum draft base => exact h.enumOwner hw ho

/-! ### What a body becomes -/

/-- The store accepts a body and makes it `definition`: it is for a class that has none and can be
laid out, or for an enum that has none and is stored as a builtin integer. -/
inductive Accepts (store : Store) : OpenBody → Definition → Prop where
  | ofClass {draft : ClassDraft} {body : ClassBody} {name : PathId} {isStruct : Bool}
      {own : Qual PathId} (node : store.node? draft.type = some ⟨.classType name isStruct, own⟩)
      (fresh : store.classBody? draft.type = none) (bases : body.bases = draft.bases)
      (data : body.data.map Member.type = draft.data.map Member.type)
      (layout : store.classLayout draft = .ok (body.size, body.align)) :
      Accepts store (.ofClass draft) (.ofClass body)
  | ofEnum {draft : EnumDraft} {base : TypeId} {body : EnumBody} {name : PathId}
      {own : Qual PathId} {kind : Kind}
      (node : store.node? draft.type = some ⟨.enumType name, own⟩)
      (fresh : store.enumBody? draft.type = none) (stored : body.base = base)
      (kind_eq : store.kind base = .ok kind) (integer : (!kind.isInteger || kind.isNamed) = false) :
      Accepts store (.ofEnum draft base) (.ofEnum body)

/-- What completing a body comes to. A refusal changes nothing; only the fault of a body that is not
for a class or enum of the store may leave names behind. -/
inductive Completion (store : Store) (body : OpenBody) :
    EStateM.Result Failure Store TypeId → Prop where
  | refused (failure : Failure) : Completion store body (.error failure store)
  | stray {names : Names} (fault : Fault)
      (foreign : ∀ owner, store.ownerFor body body.type ≠ .ok owner)
      (names_extends : store.names.Extends names)
      (names_closed : store.names.Closed → names.Closed) :
      Completion store body (.error (.fault fault) { store with names })
  | fixed {names : Names} {definition : Definition} (accepts : store.Accepts body definition)
      (names_extends : store.names.Extends names)
      (names_closed : store.names.Closed → names.Closed) :
      Completion store body (.ok body.type (store.defining names body.type definition))

/-- Entering the names of members leaves their types alone. -/
theorem map_type_of_named {names : Names} {members : List (Member String)}
    {named : List (Member Keyword)} (h : List.Forall₂ (Named names) members named) :
    named.map Member.type = members.map Member.type := by
  induction h with
  | nil => rfl
  | cons hn _ ih => rw [List.map_cons, List.map_cons, ih, hn.2, Member.rename]

/-- A class among the types is one whatever its qualifiers. -/
theorem exists_classOwner {name : PathId} {isStruct : Bool} {own : Qual PathId}
    (hn : store.node? type = some ⟨.classType name isStruct, own⟩) :
    ∃ owner, store.classOwner type = .ok owner :=
  ⟨_, classOwner_eq_ok.mpr ⟨_, hn, by cases isStruct <;> rfl, rfl⟩⟩

theorem exists_enumOwner {name : PathId} {own : Qual PathId}
    (hn : store.node? type = some ⟨.enumType name, own⟩) :
    ∃ owner, store.enumOwner type = .ok owner :=
  ⟨_, enumOwner_eq_ok.mpr ⟨_, hn, rfl, rfl⟩⟩

end Store

namespace Build

open Store

theorem completion_completeClass (draft : ClassDraft) (store : Store) :
    store.Completion (.ofClass draft) (completeClass draft store) := by
  obtain ⟨names, data, functions, hext, hc, hd, _, hrun⟩ := run_completeClass draft store
  rw [hrun]
  cases hopen : store.classBody? draft.type with
  | some body => exact .refused _
  | none =>
      cases hl : store.classLayout draft with
      | error failure => exact .refused failure
      | ok layout =>
          cases ho : store.classOwner draft.type with
          | ok owner =>
              obtain ⟨⟨shape, own⟩, hn, hk, _⟩ := classOwner_eq_ok.mp ho
              obtain ⟨name, isStruct, rfl⟩ := shape_of_isClass hk
              rw [shape_eq_ok.mpr ⟨_, hn, rfl⟩]
              exact .fixed (.ofClass hn hopen rfl (map_type_of_named hd) hl) hext hc
          | error refusal =>
              have foreign (owner : TypeId) : store.classOwner draft.type ≠ .ok owner := by
                simp [ho]
              cases hs : store.shape draft.type with
              | error failure =>
                  obtain ⟨_, rfl⟩ := shape_eq_error.mp hs
                  exact .stray _ foreign hext hc
              | ok shape =>
                  obtain ⟨⟨found, own⟩, hn, rfl⟩ := shape_eq_ok.mp hs
                  cases found with
                  | classType name isStruct =>
                      obtain ⟨owner, ho⟩ := exists_classOwner hn
                      exact absurd ho (foreign owner)
                  | _ => exact .stray _ foreign hext hc

theorem completion_completeEnum (draft : EnumDraft) (base : TypeId) (store : Store) :
    store.Completion (.ofEnum draft base) (completeEnum draft base store) := by
  obtain ⟨names, values, hext, hc, _, hrun⟩ := run_completeEnum draft base store
  rw [hrun]
  cases hopen : store.enumBody? draft.type with
  | some body => exact .refused _
  | none =>
      cases hk : store.kind base with
      | error failure => exact .refused failure
      | ok kind =>
          cases hi : !kind.isInteger || kind.isNamed with
          | true =>
              simp only [answered, Option.isSome_none, Bool.false_eq_true, if_false, hi, if_true]
              exact .refused _
          | false =>
              simp only [answered, Option.isSome_none, Bool.false_eq_true, if_false, hi]
              cases ho : store.enumOwner draft.type with
              | ok owner =>
                  obtain ⟨⟨shape, own⟩, hn, hk', _⟩ := enumOwner_eq_ok.mp ho
                  obtain ⟨name, rfl⟩ := shape_of_kind_enum hk'
                  rw [shape_eq_ok.mpr ⟨_, hn, rfl⟩]
                  refine .fixed (.ofEnum hn hopen ?_ hk hi) hext hc
                  rfl
              | error refusal =>
                  have foreign (owner : TypeId) : store.enumOwner draft.type ≠ .ok owner := by
                    simp [ho]
                  cases hs : store.shape draft.type with
                  | error failure =>
                      obtain ⟨_, rfl⟩ := shape_eq_error.mp hs
                      exact .stray _ foreign hext hc
                  | ok shape =>
                      obtain ⟨⟨found, own⟩, hn, rfl⟩ := shape_eq_ok.mp hs
                      cases found with
                      | enumType name =>
                          obtain ⟨owner, ho⟩ := exists_enumOwner hn
                          exact absurd ho (foreign owner)
                      | _ => exact .stray _ foreign hext hc

/-- Everything that completing a body can come to. -/
theorem completion_completeBody (body : OpenBody) (store : Store) :
    store.Completion body (completeBody body store) := by
  cases body with
  | ofClass draft => exact completion_completeClass draft store
  | ofEnum draft base => exact completion_completeEnum draft base store

/-- What has a body is not completed again. -/
theorem run_completeBody_of_isFixed {body : OpenBody} {store : Store}
    (hf : store.isFixed body body.type = true) :
    completeBody body store = .error (.type (.alreadyComplete body.type)) store := by
  cases body with
  | ofClass draft =>
      obtain ⟨_, _, _, _, _, _, _, hrun⟩ := run_completeClass draft store
      exact hrun.trans (if_pos hf)
  | ofEnum draft base =>
      obtain ⟨_, _, _, _, _, hrun⟩ := run_completeEnum draft base store
      exact hrun.trans (if_pos hf)

end Build

/-! ### Invariants of runs -/

namespace Store

variable {I : Store → Prop} {store old new : Store} {body : OpenBody} {asked owner type : TypeId}

/-- What holds of a new store, and goes on to hold when a store grows and when it accepts a body. -/
structure Invariant (I : Store → Prop) : Prop where
  new : ∀ target, I (Store.new target)
  grows : ∀ {old new : Store}, old.WellFormed → new.WellFormed → old.Extends new →
    new.definitions = old.definitions → I old → I new
  fixes : ∀ {store : Store} {names : Names} {body : OpenBody} {definition : Definition},
    store.WellFormed → (store.defining names body.type definition).WellFormed →
    store.Extends (store.defining names body.type definition) → store.Accepts body definition →
    I store → I (store.defining names body.type definition)

/-- From a well-formed store with a property, a store became another such one. -/
def StaysSo (I : Store → Prop) (old new : Store) : Prop :=
  old.WellFormed → I old → new.WellFormed ∧ I new

instance : Std.Refl (StaysSo I) := ⟨fun _ hw h => ⟨hw, h⟩⟩

instance : Trans (StaysSo I) (StaysSo I) (StaysSo I) where
  trans hab hbc := fun hw h => hbc (hab hw h).1 (hab hw h).2

namespace Invariant

theorem onward (hI : Invariant I) {old new : Store} (h : old.Onward new)
    (hd : old.WellFormed → new.definitions = old.definitions) : StaysSo I old new := by
  intro hw hi
  obtain ⟨hext, hw'⟩ := h hw
  exact ⟨hw', hI.grows hw hw' hext (hd hw) hi⟩

theorem completeBody (hI : Invariant I) (body : OpenBody) :
    Keeps (StaysSo I) (Build.completeBody body) := by
  intro store
  have hcompletion := Build.completion_completeBody body store
  rw [after]
  generalize Build.completeBody body store = result at hcompletion
  cases hcompletion with
  | refused failure => exact Std.Refl.refl store
  | stray fault foreign hext hc => exact hI.onward (onward_withNames hext hc) fun _ => rfl
  | fixed accepts hext hc =>
      intro hw hi
      obtain ⟨hext', hw'⟩ := onward_defining hext hc body.type _ hw
      exact ⟨hw', hI.fixes hw hw' hext' accepts hi⟩

theorem effect (hI : Invariant I) {request : Request} (hr : request.Countable) (store : Store) :
    StaysSo I store (request.effect store) := by
  have honward := request.onward_effect hr store
  cases request with
  | completeClass draft => exact hI.completeBody (.ofClass draft) store
  | completeEnum draft base => exact hI.completeBody (.ofEnum draft base) store
  | completeAll bodies =>
      exact Build.keeps_each (fun body _ => hI.completeBody body) store
  | retarget target => exact hI.onward honward fun _ => rfl
  | _ => exact hI.onward honward fun hw => (Request.safe_effect hr trivial store hw).definitions

/-- An invariant holds wherever requests lead. -/
theorem reachable (hI : Invariant I) {store : Store} (h : store.Reachable) : I store := by
  obtain ⟨target, hruns⟩ := h
  have hstays : StaysSo I (Store.new target) store := by
    induction hruns with
    | refl => exact Std.Refl.refl _
    | tail _ hstep ih =>
        obtain ⟨request, hr, rfl⟩ := hstep
        exact Trans.trans ih (hI.effect hr _)
  exact (hstays (wellFormed_new target) (hI.new target)).2

end Invariant

/-! ### Bodies of the right sort -/

/-- A body is that of a class or of an enum, as it says, and an enum is stored as a builtin integer,
however qualified. -/
inductive Fitting (store : Store) : TypeId × Definition → Prop where
  | ofClass {type : TypeId} {body : ClassBody} {name : PathId} {isStruct : Bool} {own : Qual PathId}
      (node : store.node? type = some ⟨.classType name isStruct, own⟩) :
      Fitting store (type, .ofClass body)
  | ofEnum {type : TypeId} {body : EnumBody} {name : PathId} {own : Qual PathId} {kind : Kind}
      (node : store.node? type = some ⟨.enumType name, own⟩)
      (kind_eq : store.kind body.base = .ok kind)
      (integer : (!kind.isInteger || kind.isNamed) = false) : Fitting store (type, .ofEnum body)

theorem Extends.kind (h : old.Extends new) {kind : Kind} (hk : old.kind type = .ok kind) :
    new.kind type = .ok kind := by
  obtain ⟨node, hn, rfl⟩ := kind_eq_ok.mp hk
  exact kind_eq_ok.mpr ⟨node, h.node? hn, rfl⟩

theorem Fitting.mono (h : old.Extends new) {entry : TypeId × Definition}
    (hf : old.Fitting entry) : new.Fitting entry := by
  cases hf with
  | ofClass node => exact .ofClass (h.node? node)
  | ofEnum node kind_eq integer => exact .ofEnum (h.node? node) (h.kind kind_eq) integer

theorem Fitting.holds {entry : TypeId × Definition} (hf : store.Fitting entry) :
    store.Holds entry.1 := by
  cases hf with
  | ofClass node => exact ⟨_, node⟩
  | ofEnum node => exact ⟨_, node⟩

theorem Accepts.fitting {definition : Definition} (h : store.Accepts body definition) :
    store.Fitting (body.type, definition) := by
  cases h with
  | ofClass node => exact .ofClass node
  | ofEnum node fresh stored kind_eq integer => exact .ofEnum node (stored ▸ kind_eq) integer

theorem invariant_fitting :
    Invariant fun store => ∀ entry ∈ store.definitions, store.Fitting entry where
  new target entry hm := by cases hm
  grows _ _ hext hd h entry hm := (h entry (hd ▸ hm)).mono hext
  fixes _ _ hext ha h entry hm := by
    rcases List.mem_append.mp hm with hold | hnew
    · exact (h entry hold).mono hext
    · obtain rfl := List.mem_singleton.mp hnew
      exact ha.fitting.mono hext

theorem Reachable.fitting (h : store.Reachable) :
    ∀ entry ∈ store.definitions, store.Fitting entry :=
  invariant_fitting.reachable h

/-- A body found for a class is a class body, and one found for an enum is an enum body. -/
theorem isFixed_of_definition? (hfit : ∀ entry ∈ store.definitions, store.Fitting entry)
    {definition : Definition} (ho : store.ownerFor body type = .ok owner)
    (hd : store.definition? type = some definition) : store.isFixed body type = true := by
  have hf := hfit _ (mem_of_definition? hd)
  cases body with
  | ofClass draft =>
      obtain ⟨node, hn, hk, _⟩ := classOwner_eq_ok.mp ho
      cases hf with
      | ofClass => exact Option.isSome_of_eq_some (classBody?_eq_some.mpr hd)
      | ofEnum node' =>
          cases hn.symm.trans node'
          cases hk
  | ofEnum draft base =>
      obtain ⟨node, hn, hk, _⟩ := enumOwner_eq_ok.mp ho
      cases hf with
      | ofClass node' =>
          cases hn.symm.trans node'
          exact absurd hk (by cases ‹Bool› <;> exact nofun)
      | ofEnum => exact Option.isSome_of_eq_some (enumBody?_eq_some.mpr hd)

theorem Accepts.ownerFor {definition : Definition} (ha : store.Accepts body definition) :
    ∃ owner, store.ownerFor body body.type = .ok owner := by
  cases ha with
  | ofClass node => exact exists_classOwner node
  | ofEnum node => exact exists_enumOwner node

theorem Accepts.isFixed {definition : Definition} (ha : store.Accepts body definition) :
    store.isFixed body body.type = false := by
  cases ha with
  | ofClass node fresh => exact Option.isSome_eq_false_iff.mpr (Option.isNone_iff_eq_none.mpr fresh)
  | ofEnum node fresh => exact Option.isSome_eq_false_iff.mpr (Option.isNone_iff_eq_none.mpr fresh)

/-- What is accepted had no body of any sort. -/
theorem Accepts.definition? (hfit : ∀ entry ∈ store.definitions, store.Fitting entry)
    {definition : Definition} (ha : store.Accepts body definition) :
    store.definition? body.type = none := by
  obtain ⟨owner, ho⟩ := ha.ownerFor
  rw [Option.eq_none_iff_forall_ne_some]
  intro found hd
  have hfixed := isFixed_of_definition? hfit ho hd
  rw [ha.isFixed] at hfixed
  cases hfixed

/-- The body that was fixed is the one that is found. -/
theorem definition?_defining {names : Names} {definition : Definition}
    (h : store.definition? type = none) :
    (store.defining names type definition).definition? type = some definition := by
  rw [Store.definition?] at h ⊢
  rw [Store.defining, List.lookup_append, h]
  simp

/-- The variants of a class or enum are opened like it. -/
theorem WellFormed.ownerFor_variant (hw : store.WellFormed) {variant : TypeId}
    (ho : store.ownerFor body type = .ok type) (hv : store.unqualified variant = .ok type) :
    store.ownerFor body variant = .ok type := by
  obtain ⟨node, hn, hid⟩ := unqualified_eq_ok.mp hv
  have hplain := node?_idOf (hw.plain variant node hn)
  rw [hid] at hplain
  cases body with
  | ofClass draft =>
      obtain ⟨own, hown, hk, _⟩ := classOwner_eq_ok.mp ho
      cases hplain.symm.trans hown
      exact classOwner_eq_ok.mpr ⟨node, hn, hk, hid⟩
  | ofEnum draft base =>
      obtain ⟨own, hown, hk, _⟩ := enumOwner_eq_ok.mp ho
      cases hplain.symm.trans hown
      exact enumOwner_eq_ok.mpr ⟨node, hn, hk, hid⟩

/-! ### Completing once -/

/-- Whatever draft is completed in whatever store, if a reason is given for refusing it, nothing was
changed. -/
theorem completeBody_eq_type_error {error : TypeError} {left : Store}
    (h : Build.completeBody body store = .error (.type error) left) : left = store := by
  have hcompletion := Build.completion_completeBody body store
  rw [h] at hcompletion
  cases hcompletion
  rfl

/-- The body is that of a draft of the store: one that was opened on the way to it, whatever was
filled in since, or one that was read from tables on the way. -/
inductive HasOpened (store : Store) (body : OpenBody) : Prop where
  | opened {early : Store} {asked : TypeId} (reachable : early.Reachable)
      (opens : early.openFor body asked = .ok body.type) (runs : early.Runs store)
  | read {early mid : Store} {items rest : List Item} {bodies : List OpenBody}
      (reachable : early.Reachable) (reads : Load.tables ⟨early, items⟩ = .ok bodies ⟨mid, rest⟩)
      (mem : body ∈ bodies) (runs : mid.Runs store)

/-- Reading tables is one of the requests that lead on. -/
theorem Reachable.read (h : store.Reachable) {mid : Store} {items rest : List Item}
    {bodies : List OpenBody} (hl : Load.tables ⟨store, items⟩ = .ok bodies ⟨mid, rest⟩) :
    mid.Reachable := by
  have hmid : (Request.loadTables items).effect store = mid := by
    rw [Request.effect, after_of_ok hl]
  exact hmid ▸ h.effect trivial

namespace HasOpened

theorem reachable (h : store.HasOpened body) : store.Reachable := by
  cases h with
  | opened hearly _ hruns => exact hearly.runs hruns
  | read hearly hreads _ hruns => exact (hearly.read hreads).runs hruns

/-- A draft of the store is of a class or enum of the store. -/
theorem ownerFor (h : store.HasOpened body) :
    store.ownerFor body body.type = .ok body.type := by
  cases h with
  | opened hearly hopens hruns =>
      have hw := hearly.wellFormed
      exact (hruns.onward hw).1.ownerFor hw (hw.ownerFor_self (openFor_eq_ok.mp hopens).1)
  | read hearly hreads hmem hruns =>
      have hw := (hearly.read hreads).wellFormed
      have hopen := ((Load.gives_tables _ hearly.wellFormed).gives _ _ hreads body hmem).1
      refine (hruns.onward hw).1.ownerFor hw ?_
      cases body with
      | ofClass draft => exact hopen.owner
      | ofEnum draft base => exact hopen.owner

end HasOpened

theorem Reachable.completeBody (h : store.Reachable) (body : OpenBody) :
    (after (Build.completeBody body) store).Reachable := by
  cases body with
  | ofClass draft => exact h.effect (show (Request.completeClass draft).Countable from trivial)
  | ofEnum draft base =>
      exact h.effect (show (Request.completeEnum draft base).Countable from trivial)

/-- Completing a draft fails and changes nothing, or it adds the first body that the class or enum
has, and from then on nothing opens that, under whatever qualifiers, or completes it again. -/
theorem HasOpened.completes_once (h : store.HasOpened body) :
    (∀ failure left, Build.completeBody body store = .error failure left → left = store) ∧
    ∀ type new, Build.completeBody body store = .ok type new →
      type = body.type ∧ store.isFixed body type = false ∧ ∀ later, new.Runs later →
        (∀ again, later.HasOpened again → again.type = type →
          Build.completeBody again later = .error (.type (.alreadyComplete type)) later) ∧
        ∀ variant, later.unqualified variant = .ok type →
          later.openFor body variant = .error (.type (.alreadyComplete type)) := by
  have hcompletion := Build.completion_completeBody body store
  generalize hresult : Build.completeBody body store = result at hcompletion
  cases hcompletion with
  | refused failure =>
      refine ⟨?_, nofun⟩
      rintro _ _ ⟨⟩
      rfl
  | stray fault foreign => exact absurd h.ownerFor (foreign body.type)
  | @fixed names definition accepts hext hc =>
      refine ⟨nofun, ?_⟩
      rintro _ _ ⟨⟩
      refine ⟨rfl, accepts.isFixed, fun later hruns => ?_⟩
      have hw := h.reachable.wellFormed
      obtain ⟨hnew, hw'⟩ := onward_defining hext hc body.type definition hw
      have hlater : later.Reachable :=
        (after_of_ok hresult ▸ h.reachable.completeBody body).runs hruns
      -- The body stays, so whatever is for the same class or enum finds it.
      have hd := (hruns.onward hw').1.definition?
        (definition?_defining (accepts.definition? h.reachable.fitting))
      have hfixed {again : OpenBody} {owner : TypeId}
          (ho : later.ownerFor again body.type = .ok owner) :
          later.isFixed again body.type = true :=
        isFixed_of_definition? hlater.fitting ho hd
      constructor
      · intro again hagain heq
        rw [← heq] at hfixed ⊢
        exact Build.run_completeBody_of_isFixed (hfixed hagain.ownerFor)
      · intro variant hv
        have ho := (hnew.trans (hruns.onward hw').1).ownerFor hw h.ownerFor
        exact openFor_of_isFixed (hlater.wellFormed.ownerFor_variant ho hv) (hfixed ho)

/-- Of two drafts of one struct, opened under different qualifiers, the first that is completed is
the only one. -/
theorem HasOpened.completes_once_variant :
    let struct : TypeId := ⟨Builtin.all.length⟩
    let variant : TypeId := ⟨Builtin.all.length + 1⟩
    let store := (Request.qualify struct Qual.const).effect
      ((Request.enter (.classType ⟨1⟩ true)).effect ((Request.path ["foo"]).effect (Store.new .wide)))
    let first : OpenBody := .ofClass (.new struct)
    let second : OpenBody := .ofClass
      ((ClassDraft.new struct).addData ⟨"next", .builtin .nullPtr, 0, .isPublic, false⟩)
    let completed := after (Build.completeBody first) store
    store.HasOpened first ∧ store.openFor second variant = .ok struct ∧
      Build.completeBody first store = .ok struct completed ∧
      Build.completeBody second completed =
        .error (.type (.alreadyComplete struct)) completed ∧
      completed.openFor first variant = .error (.type (.alreadyComplete struct)) := by
  intro struct variant store first second completed
  have hr : store.Reachable :=
    (((reachable_new .wide).effect (show (Request.path ["foo"]).Countable from trivial)).effect
      (show (Request.enter (.classType ⟨1⟩ true)).Countable from trivial)).effect
        (show (Request.qualify struct Qual.const).Countable from trivial)
  have hopen : store.openFor first variant = .ok struct := by decide +kernel
  have hfirst : store.HasOpened first := .opened hr hopen .refl
  have hsecond : completed.HasOpened second :=
    .opened hr hopen (.single ⟨.completeClass (.new struct), trivial, rfl⟩)
  have hrun : Build.completeBody first store = .ok struct completed :=
    outcome_eq_ok.mp (by decide +kernel)
  obtain ⟨_, _, hafter⟩ := hfirst.completes_once.2 struct completed hrun
  obtain ⟨hagain, hvariant⟩ := hafter completed .refl
  exact ⟨hfirst, hopen, hrun, hagain second hsecond rfl, hvariant variant (by decide +kernel)⟩

end Store

end TypeGraph

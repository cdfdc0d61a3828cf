import TypeGraph.Proofs.Wanted
import TypeGraph.Record.Tables

/-!
Completing classes and enums. Main statements: a draft opened in the store either fails and leaves
the store as it was, or adds one body with the members of the draft in order
(`Build.run_completeClass`, `Build.run_completeEnum`).
-/

namespace TypeGraph

/-! ### Drafts of the store -/

/-- A draft of a class of the store. Its members are counted in 64 bits. -/
structure ClassDraft.OpenIn (draft : ClassDraft) (store : Store) : Prop where
  owner : store.classOwner draft.type = .ok draft.type
  bases : draft.bases.length < UInt64.size
  data : draft.data.length < UInt64.size
  functions : draft.functions.length < UInt64.size

/-- A draft of an enum of the store. Its enumerators differ and are counted in 64 bits. -/
structure EnumDraft.OpenIn (draft : EnumDraft) (store : Store) : Prop where
  owner : store.enumOwner draft.type = .ok draft.type
  nodup : (draft.values.map Prod.fst).Nodup
  values : draft.values.length < UInt64.size

/-- A body of a class or enum of the store that is still to be completed. -/
def OpenBody.OpenIn (store : Store) : OpenBody → Prop
  | .ofClass draft => draft.OpenIn store
  | .ofEnum draft _ => draft.OpenIn store

namespace Store

variable {store old new : Store}

theorem enumOwner_eq_ok {type owner : TypeId} :
    store.enumOwner type = .ok owner ↔
      ∃ node, store.node? type = some node ∧ node.shape.kind = .enum ∧
        store.idOf (.plain node.shape) = owner :=
  unqualified_of_kind_eq_ok

theorem shape_of_kind_enum {τ π ν : Type} {shape : Shape τ π ν} (h : shape.kind = .enum) :
    ∃ name, shape = .enumType name := by
  cases shape with
  | enumType name => exact ⟨name, rfl⟩
  | builtin type => cases type <;> simp [Shape.kind, Builtin.kind] at h
  | classType name isStruct => cases isStruct <;> simp [Shape.kind] at h
  | _ => simp [Shape.kind] at h

theorem WellFormed.enumOwner (hw : store.WellFormed) {type owner : TypeId}
    (h : store.enumOwner type = .ok owner) :
    ∃ name, store.node? owner = some (.plain (.enumType name)) := by
  obtain ⟨node, hn, hk, rfl⟩ := enumOwner_eq_ok.mp h
  obtain ⟨name, hs⟩ := shape_of_kind_enum hk
  exact ⟨name, hs ▸ node?_idOf (hw.plain type node hn)⟩

theorem classOwner_of_node? {type : TypeId} {name : PathId} {isStruct : Bool}
    (h : store.node? type = some (.plain (.classType name isStruct))) :
    store.classOwner type = .ok type :=
  classOwner_eq_ok.mpr ⟨_, h, by cases isStruct <;> rfl, idOf_of_node? h⟩

theorem enumOwner_of_node? {type : TypeId} {name : PathId}
    (h : store.node? type = some (.plain (.enumType name))) : store.enumOwner type = .ok type :=
  enumOwner_eq_ok.mpr ⟨_, h, rfl, idOf_of_node? h⟩

/-! ### Bodies -/

/-- A member with its name entered. -/
def Named (names : Names) (member : Member String) (named : Member Keyword) : Prop :=
  names.text named.name = .ok member.name ∧ named = member.rename named.name

/-- An enumerator with its name entered. -/
def NamedValue (names : Names) (entry : String × Int128) (named : Keyword × Int128) : Prop :=
  names.text named.1 = .ok entry.1 ∧ named.2 = entry.2

/-- A class body has what the draft lists, in order. -/
structure Completes (names : Names) (draft : ClassDraft) (body : ClassBody) : Prop where
  bases : body.bases = draft.bases
  data : List.Forall₂ (Named names) draft.data body.data
  functions : List.Forall₂ (Named names) draft.functions body.functions

/-- An enum body has what the draft lists, in order. -/
structure CompletesEnum (names : Names) (draft : EnumDraft) (base : TypeId) (body : EnumBody) :
    Prop where
  flavor : body.flavor = draft.flavor
  base : body.base = base
  values : List.Forall₂ (NamedValue names) draft.values body.values

/-- The store with names added and one more body. -/
def defining (store : Store) (names : Names) (type : TypeId) (definition : Definition) : Store :=
  { store with names, definitions := store.definitions ++ [(type, definition)] }

theorem extends_defining {names : Names} (h : store.names.Extends names) (type : TypeId)
    (definition : Definition) : store.Extends (store.defining names type definition) :=
  ⟨h, .refl _, .refl _, List.prefix_append _ _⟩

theorem WellFormed.defining (hw : store.WellFormed) {names : Names}
    (h : store.names.Extends names) (hc : names.Closed) (type : TypeId) (definition : Definition) :
    (store.defining names type definition).WellFormed where
  names := hc
  builtins := hw.builtins
  noParams := hw.noParams
  shapes other node hn := (hw.shapes other node hn).mono (extends_defining h _ _) (Nat.le_refl _)
  plain := hw.plain
  sets set params hs := (hw.sets set params hs).mono (extends_defining h _ _)

end Store

namespace Build

open Store

variable {α β : Type}

/-! ### Naming members -/

/-- Naming the elements of a list one by one adds names only, and what holds of each element and
its named form then holds of all of them. -/
theorem run_mapM_naming {f : α → Build β} {R : Names → α → β → Prop}
    (hR : ∀ {old new : Names} {a b}, old.Extends new → R old a b → R new a b)
    (hf : ∀ a (store : Store), ∃ b names, f a store = .ok b { store with names } ∧
      store.names.Extends names ∧ (store.names.Closed → names.Closed) ∧ R names a b)
    (as : List α) : ∀ store : Store, ∃ bs names, as.mapM f store = .ok bs { store with names } ∧
      store.names.Extends names ∧ (store.names.Closed → names.Closed) ∧
      List.Forall₂ (R names) as bs := by
  induction as with
  | nil => exact fun store => ⟨[], store.names, rfl, .refl _, id, .nil⟩
  | cons a as ih =>
      intro store
      obtain ⟨b, first, hb, hext, hc, hr⟩ := hf a store
      obtain ⟨bs, names, hbs, hext', hc', hrs⟩ := ih { store with names := first }
      refine ⟨b :: bs, names, ?_, hext.trans hext', hc' ∘ hc, .cons (hR hext' hr) hrs⟩
      rw [List.mapM_cons, run_bind_of_ok hb, run_bind_of_ok hbs]
      rfl

theorem run_nameMembers (members : List (Member String)) (store : Store) :
    ∃ named names, members.mapM nameMember store = .ok named { store with names } ∧
      store.names.Extends names ∧ (store.names.Closed → names.Closed) ∧
      List.Forall₂ (Named names) members named := by
  refine run_mapM_naming ?_ ?_ members store
  · intro old new member named h hn
    exact ⟨h.text hn.1, hn.2⟩
  · intro member store
    exact ⟨_, _, rfl, Names.extends_intern _ _, fun h => h.intern _, Names.text_intern _ _, rfl⟩

theorem run_nameValues (values : List (String × Int128)) (store : Store) :
    ∃ named names, values.mapM nameValue store = .ok named { store with names } ∧
      store.names.Extends names ∧ (store.names.Closed → names.Closed) ∧
      List.Forall₂ (NamedValue names) values named := by
  refine run_mapM_naming ?_ ?_ values store
  · intro old new entry named h hn
    exact ⟨h.text hn.1, hn.2⟩
  · intro entry store
    exact ⟨_, _, rfl, Names.extends_intern _ _, fun h => h.intern _, Names.text_intern _ _, rfl⟩

/-! ### Completing a draft -/

/-- A class is completed if it is open and can be laid out. Otherwise at most names are added. -/
theorem run_completeClass (draft : ClassDraft) (store : Store) :
    ∃ names data functions, store.names.Extends names ∧ (store.names.Closed → names.Closed) ∧
      List.Forall₂ (Named names) draft.data data ∧
      List.Forall₂ (Named names) draft.functions functions ∧
      completeClass draft store =
        if (store.classBody? draft.type).isSome then
          .error (.type (.alreadyComplete draft.type)) store
        else answered store (store.classLayout draft) fun layout =>
          answered { store with names } (store.shape draft.type) fun
            | .classType _ _ => .ok draft.type (store.defining names draft.type
                (.ofClass ⟨draft.bases, data, functions, layout.1, layout.2⟩))
            | _ => .error (.fault (.notAggregate draft.type)) { store with names } := by
  obtain ⟨data, first, hdata, hext, hc, hd⟩ := run_nameMembers draft.data store
  obtain ⟨functions, names, hfunctions, hext', hc', hf⟩ :=
    run_nameMembers draft.functions { store with names := first }
  have hd' : List.Forall₂ (Named names) draft.data data :=
    hd.imp fun _ _ h => ⟨hext'.text h.1, h.2⟩
  refine ⟨names, data, functions, hext.trans hext', hc' ∘ hc, hd', hf, ?_⟩
  unfold completeClass
  rw [run_bind_of_ok (run_get store)]
  split
  · rfl
  · dsimp only
    rw [run_query_bind]
    refine answered_congr fun layout _ => ?_
    rw [run_bind_of_ok hdata, run_bind_of_ok hfunctions, run_query_bind]
    refine answered_congr fun shape _ => ?_
    cases shape <;> rfl

/-- An enum is completed if it is open and its base is a builtin integer. Otherwise at most names
are added. -/
theorem run_completeEnum (draft : EnumDraft) (base : TypeId) (store : Store) :
    ∃ names values, store.names.Extends names ∧ (store.names.Closed → names.Closed) ∧
      List.Forall₂ (NamedValue names) draft.values values ∧
      completeEnum draft base store =
        if (store.enumBody? draft.type).isSome then
          .error (.type (.alreadyComplete draft.type)) store
        else answered store (store.kind base) fun kind =>
          if !kind.isInteger || kind.isNamed then
            .error (.type (.invalidEnumBase draft.type base)) store
          else answered { store with names } (store.shape draft.type) fun
            | .enumType _ => .ok draft.type (store.defining names draft.type
                (.ofEnum ⟨draft.flavor, values, base⟩))
            | _ => .error (.fault (.notAggregate draft.type)) { store with names } := by
  obtain ⟨values, names, hvalues, hext, hc, hv⟩ := run_nameValues draft.values store
  refine ⟨names, values, hext, hc, hv, ?_⟩
  unfold completeEnum
  rw [run_bind_of_ok (run_get store)]
  split
  · rfl
  · dsimp only
    rw [run_query_bind]
    refine answered_congr fun kind _ => ?_
    split
    · rfl
    · rw [run_bind_of_ok hvalues, run_query_bind]
      refine answered_congr fun shape _ => ?_
      cases shape <;> rfl

/-- What completing a class leaves: names at most, or one more body. -/
theorem after_completeClass (draft : ClassDraft) (store : Store) :
    ∃ names, store.names.Extends names ∧ (store.names.Closed → names.Closed) ∧
      (after (completeClass draft) store = { store with names } ∨
        ∃ data functions size align, store.classBody? draft.type = none ∧
          List.Forall₂ (Named names) draft.data data ∧
          List.Forall₂ (Named names) draft.functions functions ∧
          store.classLayout draft = .ok (size, align) ∧
          after (completeClass draft) store = store.defining names draft.type
            (.ofClass ⟨draft.bases, data, functions, size, align⟩)) := by
  obtain ⟨names, data, functions, hext, hc, hd, hf, hrun⟩ := run_completeClass draft store
  rw [after, hrun]
  cases store.classBody? draft.type with
  | some body => exact ⟨store.names, .refl _, id, Or.inl rfl⟩
  | none =>
      cases store.classLayout draft with
      | error failure => exact ⟨store.names, .refl _, id, Or.inl rfl⟩
      | ok layout =>
          refine ⟨names, hext, hc, ?_⟩
          cases store.shape draft.type with
          | error failure => exact Or.inl rfl
          | ok shape =>
              cases shape with
              | classType name isStruct =>
                  exact Or.inr ⟨data, functions, _, _, rfl, hd, hf, rfl, rfl⟩
              | _ => exact Or.inl rfl

theorem after_completeEnum (draft : EnumDraft) (base : TypeId) (store : Store) :
    ∃ names, store.names.Extends names ∧ (store.names.Closed → names.Closed) ∧
      (after (completeEnum draft base) store = { store with names } ∨
        ∃ values kind, store.enumBody? draft.type = none ∧
          List.Forall₂ (NamedValue names) draft.values values ∧
          store.kind base = .ok kind ∧ (!kind.isInteger || kind.isNamed) = false ∧
          after (completeEnum draft base) store = store.defining names draft.type
            (.ofEnum ⟨draft.flavor, values, base⟩)) := by
  obtain ⟨names, values, hext, hc, hv, hrun⟩ := run_completeEnum draft base store
  rw [after, hrun]
  cases store.enumBody? draft.type with
  | some body => exact ⟨store.names, .refl _, id, Or.inl rfl⟩
  | none =>
      cases store.kind base with
      | error failure => exact ⟨store.names, .refl _, id, Or.inl rfl⟩
      | ok kind =>
          cases hk : !kind.isInteger || kind.isNamed with
          | true =>
              refine ⟨store.names, .refl _, id, Or.inl ?_⟩
              simp only [answered, Option.isSome_none, Bool.false_eq_true, if_false, hk, if_true]
          | false =>
              refine ⟨names, hext, hc, ?_⟩
              simp only [answered, Option.isSome_none, Bool.false_eq_true, if_false, hk]
              cases store.shape draft.type with
              | error failure => exact Or.inl rfl
              | ok shape =>
                  cases shape with
                  | enumType name => exact Or.inr ⟨values, kind, trivial, hv, rfl, hk, rfl⟩
                  | _ => exact Or.inl rfl

/-! ### Enums that are there afterwards -/

variable {store : Store} {type : TypeId} {body : EnumBody}

theorem ofEnum_of_completeClass {draft : ClassDraft}
    (hm : (type, .ofEnum body) ∈ (after (completeClass draft) store).definitions) :
    (type, .ofEnum body) ∈ store.definitions := by
  obtain ⟨names, _, _, h | ⟨data, functions, size, align, _, _, _, _, h⟩⟩ :=
    after_completeClass draft store
  · rwa [h] at hm
  · rw [h] at hm
    rcases List.mem_append.mp hm with hold | hnew
    · exact hold
    · cases List.mem_singleton.mp hnew

theorem ofEnum_of_completeEnum {draft : EnumDraft} {base : TypeId}
    (hm : (type, .ofEnum body) ∈ (after (completeEnum draft base) store).definitions) :
    (type, .ofEnum body) ∈ store.definitions ∨ ∃ kind, store.kind body.base = .ok kind ∧
      (!kind.isInteger || kind.isNamed) = false := by
  obtain ⟨names, _, _, h | ⟨values, kind, _, _, hk, hinteger, h⟩⟩ :=
    after_completeEnum draft base store
  · rw [h] at hm
    exact Or.inl hm
  · rw [h] at hm
    rcases List.mem_append.mp hm with hold | hnew
    · exact Or.inl hold
    · cases List.mem_singleton.mp hnew
      exact Or.inr ⟨kind, hk, hinteger⟩

end Build

end TypeGraph

import Mathlib.Order.Bounds.Basic
import TypeGraph.Proofs.Drafting
import TypeGraph.Proofs.Fixing

/-!
Finished bodies against the calls that their drafts were written by. Main statement: a body lists
what was recorded, in the order of the calls, for good; members and values are found under their
names whatever other names the store has met (`Store.Reachable.records`).
-/

namespace TypeGraph

variable {α β : Type}

/-! ### The least and the greatest value -/

namespace Int128

theorem val_min (a b : Int128) : (a.min b).val = Min.min a.val b.val := by
  unfold Int128.min
  split <;> omega

theorem val_max (a b : Int128) : (a.max b).val = Max.max a.val b.val := by
  unfold Int128.max
  split <;> omega

end Int128

namespace EnumBody

variable {body : EnumBody}

/-- The values of a finished enum. -/
def numbers (body : EnumBody) : List Int := body.values.map (·.2.val)

theorem isLeast_least (h : body.values ≠ []) : IsLeast {n | n ∈ body.numbers} body.least.val := by
  obtain ⟨flavor, values, base⟩ := body
  cases values with
  | nil => exact absurd rfl h
  | cons entry entries =>
      have hfold : (entries.map (·.2.val)).foldl Min.min entry.2.val =
          (entries.foldl (fun least entry => least.min entry.2) entry.2).val := by
        rw [List.foldl_map]
        exact List.foldl_hom Int128.val fun least entry => (Int128.val_min least entry.2).symm
      refine List.min?_eq_some_iff.mp ?_
      rw [numbers, List.map_cons, List.min?_cons', hfold]
      rfl

theorem isGreatest_greatest (h : body.values ≠ []) :
    IsGreatest {n | n ∈ body.numbers} body.greatest.val := by
  obtain ⟨flavor, values, base⟩ := body
  cases values with
  | nil => exact absurd rfl h
  | cons entry entries =>
      have hfold : (entries.map (·.2.val)).foldl Max.max entry.2.val =
          (entries.foldl (fun greatest entry => greatest.max entry.2) entry.2).val := by
        rw [List.foldl_map]
        exact List.foldl_hom Int128.val fun greatest entry => (Int128.val_max greatest entry.2).symm
      refine List.max?_eq_some_iff.mp ?_
      rw [numbers, List.map_cons, List.max?_cons', hfold]
      rfl

/-- The least and the greatest value of an enum are those among its values, and zero if it has
none. -/
theorem bounds (body : EnumBody) :
    (body.values = [] → body.least = .zero ∧ body.greatest = .zero) ∧
    (body.values ≠ [] → IsLeast {n | n ∈ body.numbers} body.least.val ∧
      IsGreatest {n | n ∈ body.numbers} body.greatest.val) := by
  constructor
  · intro h
    simp [least, greatest, h]
  · exact fun h => ⟨isLeast_least h, isGreatest_greatest h⟩

end EnumBody

/-! ### Names that lead to entries -/

theorem lookup_eq_map_find? [BEq α] [LawfulBEq α] (entries : List (α × β)) (key : α) :
    entries.lookup key = (entries.find? (·.1 == key)).map Prod.snd := by
  induction entries with
  | nil => rfl
  | cons entry entries ih =>
      obtain ⟨found, value⟩ := entry
      by_cases h : found = key
      · simp [h]
      · rw [List.lookup_cons, beq_false_of_ne (Ne.symm h), ih]
        rw [List.find?_cons_of_neg (by simpa using h)]

namespace Names

variable {names : Names}

theorem lookup?_eq_some {text : String} {keyword : Keyword} :
    names.lookup? text = some keyword ↔ names.text keyword = .ok text := by
  rw [text_eq_ok, lookup?]
  constructor
  · intro h
    split at h
    next hm =>
      cases h
      exact Table.get?_indexOf hm
    next => cases h
  · intro h
    rw [if_pos (Table.mem_of_get? h), Table.indexOf_of_get? h]

/-- The first entry of a text is found under its keyword, if there is one. -/
theorem rel_find? {R : α → β → Prop} {name : α → String} {key : β → Keyword} {as : List α}
    {bs : List β} (hR : ∀ a b, R a b → names.text (key b) = .ok (name a))
    (h : List.Forall₂ R as bs) (text : String) :
    Option.Rel R (as.find? (name · == text))
      ((names.lookup? text).bind fun keyword => bs.find? (key · == keyword)) := by
  induction h with
  | nil =>
      cases names.lookup? text <;> exact .none
  | @cons a b as bs hab _ ih =>
      have htext := hR a b hab
      by_cases hname : name a = text
      · have hkey : names.lookup? text = some (key b) := lookup?_eq_some.mpr (hname ▸ htext)
        rw [List.find?_cons_of_pos (by simpa using hname), hkey, Option.bind_some,
          List.find?_cons_of_pos (by simp)]
        exact .some hab
      · rw [List.find?_cons_of_neg (by simpa using hname)]
        cases hl : names.lookup? text with
        | none => simpa [hl] using ih
        | some keyword =>
            have hne : key b ≠ keyword := by
              rintro rfl
              have hsame := lookup?_eq_some.mp hl
              rw [htext] at hsame
              exact hname (Except.ok.inj hsame)
            rw [hl, Option.bind_some] at ih
            rwa [Option.bind_some, List.find?_cons_of_neg (by simpa using hne)]

end Names

/-! ### What bodies list -/

namespace Store

/-- A finished body lists what the draft that was completed did, in order. -/
inductive Records (names : Names) : OpenBody → Definition → Prop where
  | ofClass {draft : ClassDraft} {body : ClassBody} (completes : Completes names draft body) :
      Records names (.ofClass draft) (.ofClass body)
  | ofEnum {draft : EnumDraft} {base : TypeId} {body : EnumBody}
      (completes : CompletesEnum names draft base body) :
      Records names (.ofEnum draft base) (.ofEnum body)

theorem Records.mono {old new : Names} (h : old.Extends new) {body : OpenBody}
    {definition : Definition} (hr : Records old body definition) : Records new body definition := by
  cases hr with
  | ofClass completes => exact .ofClass (completes.mono h)
  | ofEnum completes => exact .ofEnum (completes.mono h)

variable {store : Store} {names names' : Names} {type : TypeId}
  {definition definition' : Definition}

theorem defining_ne_withNames :
    store.defining names type definition ≠ { store with names := names' } := by
  intro h
  have hd : store.definitions ++ [(type, definition)] = store.definitions :=
    congrArg Store.definitions h
  simp at hd

theorem defining_inj
    (h : store.defining names type definition = store.defining names' type definition') :
    names = names' ∧ definition = definition' := by
  have hd : store.definitions ++ [(type, definition)] =
      store.definitions ++ [(type, definition')] :=
    congrArg Store.definitions h
  refine ⟨congrArg Store.names h, ?_⟩
  simpa using hd

end Store

namespace Build

open Store

/-- A body is completed by adding what it lists. -/
theorem run_completeBody_eq_ok {body : OpenBody} {store new : Store} {type : TypeId}
    (h : completeBody body store = .ok type new) :
    type = body.type ∧ ∃ names definition, store.Accepts body definition ∧
      store.names.Extends names ∧ (store.names.Closed → names.Closed) ∧
      Records names body definition ∧ new = store.defining names body.type definition := by
  have hcompletion := completion_completeBody body store
  rw [h] at hcompletion
  cases hcompletion with
  | @fixed names definition accepts hext hc =>
      refine ⟨rfl, names, definition, accepts, hext, hc, ?_, rfl⟩
      have hafter := after_of_ok h
      cases body with
      | ofClass draft =>
          obtain ⟨_, _, _, heq | ⟨data, functions, size, align, _, hd, hf, _, heq⟩⟩ :=
            after_completeClass draft store
          · exact absurd (hafter.symm.trans heq) defining_ne_withNames
          · obtain ⟨rfl, rfl⟩ := defining_inj (hafter.symm.trans heq)
            exact .ofClass ⟨rfl, hd, hf⟩
      | ofEnum draft base =>
          obtain ⟨_, _, _, heq | ⟨values, kind, _, hv, _, _, heq⟩⟩ :=
            after_completeEnum draft base store
          · exact absurd (hafter.symm.trans heq) defining_ne_withNames
          · obtain ⟨rfl, rfl⟩ := defining_inj (hafter.symm.trans heq)
            exact .ofEnum ⟨rfl, rfl, hv⟩

end Build

namespace Store

variable {store : Store}

/-- What is accepted is for a class or enum. If that has no qualifiers it is its own owner. -/
theorem Accepts.ownerFor_self {later : Store} {body : OpenBody} {definition : Definition}
    {shape : Shape TypeId ParamSetId PathId} (ha : store.Accepts body definition)
    (hext : store.Extends later) (hn : later.node? body.type = some (.plain shape)) :
    later.ownerFor body body.type = .ok body.type := by
  cases ha with
  | ofClass node =>
      cases (hext.node? node).symm.trans hn
      exact classOwner_of_node? hn
  | ofEnum node =>
      cases (hext.node? node).symm.trans hn
      exact enumOwner_of_node? hn

/-- A class or enum that owns a type is that type without its qualifiers. -/
theorem unqualified_of_ownerFor {body : OpenBody} {type owner : TypeId}
    (h : store.ownerFor body type = .ok owner) : store.unqualified type = .ok owner := by
  cases body with
  | ofClass draft =>
      obtain ⟨node, hn, _, hid⟩ := classOwner_eq_ok.mp h
      exact unqualified_eq_ok.mpr ⟨node, hn, hid⟩
  | ofEnum draft base =>
      obtain ⟨node, hn, _, hid⟩ := enumOwner_eq_ok.mp h
      exact unqualified_eq_ok.mpr ⟨node, hn, hid⟩

/-- A body that was completed is there for good and lists what was completed. The types that differ
from the completed one in qualifiers only have the body, if that has none. -/
theorem Reachable.keeps_records (h : store.Reachable) {body : OpenBody} {type : TypeId}
    {new later : Store} (hrun : Build.completeBody body store = .ok type new)
    (hruns : new.Runs later) :
    type = body.type ∧ ∃ definition, Records later.names body definition ∧
      later.definition? type = some definition ∧
      (∀ variant, later.unqualified variant = .ok type →
        later.ownerFor body variant = .ok type) ∧
      (store.HasOpened body → later.unqualified type = .ok type) := by
  obtain ⟨rfl, names, definition, accepts, hext, hc, hrecords, rfl⟩ :=
    Build.run_completeBody_eq_ok hrun
  obtain ⟨hnew, hw⟩ := onward_defining hext hc body.type definition h.wellFormed
  obtain ⟨hlater, hw'⟩ := hruns.onward hw
  have hfound := hlater.definition? (definition?_defining (accepts.definition? h.fitting))
  refine ⟨rfl, definition, hrecords.mono hlater.names, hfound, fun variant hv => ?_,
    fun hopened => ?_⟩
  · obtain ⟨node, hn, hid⟩ := unqualified_eq_ok.mp hv
    have hplain := node?_idOf (hw'.plain variant node hn)
    rw [hid] at hplain
    exact hw'.ownerFor_variant (accepts.ownerFor_self (hnew.trans hlater) hplain) hv
  · exact unqualified_of_ownerFor ((hnew.trans hlater).ownerFor h.wellFormed hopened.ownerFor)

/-- The value of a text is that of the first enumerator that was listed under it. -/
theorem enumValue_eq {body : EnumBody} {entries : List (String × Int128)} {type : TypeId}
    (hbody : store.enumBody type = .ok body)
    (hv : List.Forall₂ (NamedValue store.names) entries body.values) (text : String) :
    store.enumValue type text = .ok (entries.lookup text) := by
  rw [enumValue, hbody]
  refine congrArg Except.ok ?_
  have hvalue : body.value? = Option.map Prod.snd ∘ fun keyword =>
      body.values.find? (·.1 == keyword) := by
    funext keyword
    exact lookup_eq_map_find? body.values keyword
  have hsame {a : Option (String × Int128)} {b : Option (Keyword × Int128)}
      (hr : Option.Rel (NamedValue store.names) a b) : b.map Prod.snd = a.map Prod.snd := by
    cases hr with
    | none => rfl
    | some h => exact congrArg some h.2
  rw [hvalue, ← Option.map_bind, lookup_eq_map_find?]
  exact hsame (Names.rel_find? (fun _ _ h => h.1) hv text)

/-- The data member of a text is the first one that was listed under it. -/
theorem dataMember_eq {body : ClassBody} {members : List (Member String)} {type : TypeId}
    (hbody : store.classBody type = .ok body)
    (hd : List.Forall₂ (Named store.names) members body.data) (text : String) :
    ∃ found, store.dataMember type text = .ok found ∧
      Option.Rel (Named store.names) (members.find? (·.name == text)) found := by
  rw [dataMember, hbody]
  exact ⟨_, rfl, Names.rel_find? (fun _ _ h => h.1) hd text⟩

/-! ### Drafts written by calls -/

/-- What a finished enum has of the calls that its draft was written by: the first enumerator of
each name, in order, and the flavor that was chosen last. -/
structure EnumRecord (names : Names) (calls : List EnumCall) (base : TypeId) (body : EnumBody) :
    Prop where
  values : List.Forall₂ (NamedValue names) (firsts (EnumDraft.asked calls)) body.values
  flavor : body.flavor = EnumDraft.chosen .plain calls
  base : body.base = base
  empty : body.values = [] → body.least = .zero ∧ body.greatest = .zero
  bounds : body.values ≠ [] → IsLeast {n | n ∈ body.numbers} body.least.val ∧
    IsGreatest {n | n ∈ body.numbers} body.greatest.val

/-- What a finished class has of the calls that its draft was written by: all of its bases and
members, in order. -/
structure ClassRecord (names : Names) (calls : List ClassCall) (body : ClassBody) : Prop where
  bases : body.bases = calls.filterMap ClassCall.base?
  data : List.Forall₂ (Named names) (calls.filterMap ClassCall.data?) body.data
  functions : List.Forall₂ (Named names) (calls.filterMap ClassCall.function?) body.functions

theorem enumRecord_of_records {names : Names} {type base : TypeId} {calls : List EnumCall}
    {definition : Definition}
    (h : Records names (.ofEnum ((EnumDraft.new type).writeAll calls) base) definition) :
    ∃ body, definition = .ofEnum body ∧ EnumRecord names calls base body := by
  rw [EnumDraft.writeAll_new] at h
  cases h with
  | @ofEnum _ _ body completes =>
      exact ⟨body, rfl, completes.values, completes.flavor, completes.base, body.bounds.1,
        body.bounds.2⟩

theorem classRecord_of_records {names : Names} {type : TypeId} {calls : List ClassCall}
    {definition : Definition}
    (h : Records names (.ofClass ((ClassDraft.new type).writeAll calls)) definition) :
    ∃ body, definition = .ofClass body ∧ ClassRecord names calls body := by
  rw [ClassDraft.writeAll_eq] at h
  cases h with
  | @ofClass _ body completes =>
      exact ⟨body, rfl, completes.bases, completes.data, completes.functions⟩

/-- An enumerator is refused exactly if one of that name was asked for before, and then it changes
nothing. What is completed lists what was recorded, in the order of the calls, for good. Types that
have the completed enum or class for their unqualified type tell the first value or data member of
each name, whatever names the store has met; these are its variants if it was opened in the store. -/
theorem Reachable.records (h : store.Reachable) (type : TypeId) :
    (∀ calls name value,
      let draft := (EnumDraft.new type).writeAll calls
      let next := (EnumDraft.new type).writeAll (calls ++ [.value name value])
      if ((EnumDraft.asked calls).lookup name).isSome then
        draft.add name value = .error (.duplicateEnumValue type name) ∧ next = draft
      else draft.add name value = .ok next) ∧
    (∀ calls base completed new,
      let draft := (EnumDraft.new type).writeAll calls
      Build.completeEnum draft base store = .ok completed new → completed = type ∧
        ∀ later, new.Runs later → ∃ body, later.enumBody? type = some body ∧
          EnumRecord later.names calls base body ∧
          (store.HasOpened (.ofEnum draft base) → later.unqualified type = .ok type) ∧
          ∀ variant, later.unqualified variant = .ok type → later.enumBody variant = .ok body ∧
            ∀ text, later.enumValue variant text = .ok ((EnumDraft.asked calls).lookup text)) ∧
    ∀ calls completed new,
      let draft := (ClassDraft.new type).writeAll calls
      Build.completeClass draft store = .ok completed new → completed = type ∧
        ∀ later, new.Runs later → ∃ body, later.classBody? type = some body ∧
          ClassRecord later.names calls body ∧
          (store.HasOpened (.ofClass draft) → later.unqualified type = .ok type) ∧
          ∀ variant, later.unqualified variant = .ok type → later.classBody variant = .ok body ∧
            ∀ text, ∃ found, later.dataMember variant text = .ok found ∧
              Option.Rel (Named later.names)
                ((calls.filterMap ClassCall.data?).find? (·.name == text)) found := by
  refine ⟨?_, ?_, ?_⟩
  · intro calls name value draft next
    have hadd := EnumDraft.add_writeAll_new type calls name value
    have hnext : next = draft.write (.value name value) := EnumDraft.writeAll_concat _ _ _
    split
    next hold =>
      rw [if_pos hold] at hadd
      refine ⟨hadd, ?_⟩
      rw [hnext, EnumDraft.write_value, EnumDraft.value?_writeAll_new, if_pos hold]
    next hold => rwa [if_neg hold] at hadd
  · intro calls base completed new draft hrun
    have htype : draft.type = type := congrArg EnumDraft.type (EnumDraft.writeAll_new type calls)
    have hbody : Build.completeBody (.ofEnum draft base) store = .ok completed new := hrun
    obtain rfl : completed = type := (Build.run_completeBody_eq_ok hbody).1.trans htype
    refine ⟨rfl, fun later hruns => ?_⟩
    obtain ⟨_, definition, hrecords, hd, howner, hself⟩ := h.keeps_records hbody hruns
    obtain ⟨body, rfl, hrecord⟩ := enumRecord_of_records hrecords
    refine ⟨body, enumBody?_eq_some.mpr hd, hrecord, hself, fun variant hv => ?_⟩
    have hvariant : later.enumBody variant = .ok body :=
      enumBody_eq_ok.mpr ⟨completed, howner variant hv, hd⟩
    refine ⟨hvariant, fun text => ?_⟩
    rw [enumValue_eq hvariant hrecord.values, lookup_firsts]
  · intro calls completed new draft hrun
    have htype : draft.type = type := congrArg ClassDraft.type (ClassDraft.writeAll_eq _ calls)
    have hbody : Build.completeBody (.ofClass draft) store = .ok completed new := hrun
    obtain rfl : completed = type := (Build.run_completeBody_eq_ok hbody).1.trans htype
    refine ⟨rfl, fun later hruns => ?_⟩
    obtain ⟨_, definition, hrecords, hd, howner, hself⟩ := h.keeps_records hbody hruns
    obtain ⟨body, rfl, hrecord⟩ := classRecord_of_records hrecords
    refine ⟨body, classBody?_eq_some.mpr hd, hrecord, hself, fun variant hv => ?_⟩
    have hvariant : later.classBody variant = .ok body :=
      classBody_eq_ok.mpr ⟨completed, howner variant hv, hd⟩
    exact ⟨hvariant, dataMember_eq hvariant hrecord.data⟩

/-- An enum is given one name twice, and told from its variant. -/
theorem Reachable.records_enum :
    let type : TypeId := ⟨Builtin.all.length⟩
    let variant : TypeId := ⟨Builtin.all.length + 1⟩
    let base : TypeId := .builtin (.bool .hard)
    let five : Int128 := ⟨5, by decide, by decide⟩
    let calls : List EnumCall :=
      [.value "a" five, .value "b" .zero, .flavor .scoped, .value "a" .zero]
    let store := (Request.qualify type Qual.const).effect ((Request.enter (.enumType ⟨1⟩)).effect
      ((Request.path ["e"]).effect ((Request.intern "b").effect (Store.new .wide))))
    let draft := (EnumDraft.new type).writeAll calls
    ∃ new body, store.HasOpened (.ofEnum draft base) ∧
      Build.completeEnum draft base store = .ok type new ∧ new.enumBody? type = some body ∧
      EnumRecord new.names calls base body ∧ body.flavor = .scoped ∧
      new.enumValue variant "a" = .ok (some five) ∧ new.enumValue variant "c" = .ok none := by
  intro type variant base five calls store draft
  have hr : store.Reachable :=
    ((((reachable_new .wide).effect (show (Request.intern "b").Countable from trivial)).effect
      (show (Request.path ["e"]).Countable from trivial)).effect
        (show (Request.enter (.enumType ⟨1⟩)).Countable from trivial)).effect
          (show (Request.qualify type Qual.const).Countable from trivial)
  have hopen : store.openFor (.ofEnum draft base) variant = .ok type := by decide +kernel
  have hopened : store.HasOpened (.ofEnum draft base) := .opened hr hopen .refl
  have hrun : outcome (Build.completeEnum draft base) store = .ok type := by decide +kernel
  replace hrun := outcome_eq_ok.mp hrun
  obtain ⟨_, hafter⟩ := (hr.records type).2.1 calls base type _ hrun
  obtain ⟨body, hbody, hrecord, _, hvariants⟩ := hafter _ .refl
  obtain ⟨_, hvalues⟩ := hvariants variant (by decide +kernel)
  exact ⟨_, body, hopened, hrun, hbody, hrecord, hrecord.flavor, hvalues "a", hvalues "c"⟩

/-- A draft of another store may complete a qualified variant. The value that was recorded is then
not told, neither by the variant nor by the enum. -/
theorem exists_value_untold :
    ∃ (store other new : Store) (plain type base : TypeId) (calls : List EnumCall),
      store.Reachable ∧ other.Reachable ∧ other.openEnum type = .ok (.new type) ∧
      Build.completeEnum ((EnumDraft.new type).writeAll calls) base store = .ok type new ∧
      (EnumDraft.asked calls).lookup "a" = some .zero ∧ new.unqualified type = .ok plain ∧
      new.enumValue type "a" = .error (.type (.incomplete type)) ∧
      new.enumValue plain "a" = .error (.type (.incomplete plain)) := by
  let plain : TypeId := ⟨Builtin.all.length⟩
  let type : TypeId := ⟨Builtin.all.length + 1⟩
  let enum (path : PathId) (store : Store) := (Request.enter (.enumType path)).effect store
  let store := (Request.qualify plain Qual.const).effect
    (enum ⟨1⟩ ((Request.path ["e"]).effect (Store.new .wide)))
  let other := enum ⟨2⟩ ((Request.path ["f"]).effect
    (enum ⟨1⟩ ((Request.path ["e"]).effect (Store.new .wide))))
  have henum {path : PathId} {store : Store} (h : store.Reachable) : (enum path store).Reachable :=
    h.effect (show (Request.enter (.enumType path)).Countable from trivial)
  have hpath {texts : List String} {store : Store} (h : store.Reachable) :
      ((Request.path texts).effect store).Reachable :=
    h.effect (show (Request.path texts).Countable from trivial)
  have hr : store.Reachable := (henum (hpath (reachable_new .wide))).effect
    (show (Request.qualify plain Qual.const).Countable from trivial)
  have hother : other.Reachable := henum (hpath (henum (hpath (reachable_new .wide))))
  have hrun : outcome (Build.completeEnum ((EnumDraft.new type).writeAll [.value "a" .zero])
      (.builtin (.bool .hard))) store = .ok type := by decide +kernel
  exact ⟨store, other, _, plain, type, _, [.value "a" .zero], hr, hother, by decide +kernel,
    outcome_eq_ok.mp hrun, rfl, by decide +kernel, by decide +kernel, by decide +kernel⟩

end Store

end TypeGraph

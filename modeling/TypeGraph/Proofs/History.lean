import Mathlib.Data.List.Perm.Subperm
import TypeGraph.Proofs.Runs

/-!
How the bodies of a store came about. Main statement: if the drafts that were completed were opened
in the store and its classes were laid out for one machine, each body can be fixed again from the
ones before it (`Store.ReachableFor.traced`).
-/

namespace TypeGraph

namespace Store

variable {store old new : Store} {machine : Target}

/-! ### Bodies that can be fixed -/

/-- The store with other bodies, laid out for `machine`. -/
def asOf (store : Store) (machine : Target) (bodies : List (TypeId × Definition)) : Store :=
  { store with target := machine, definitions := bodies }

theorem WellFormed.asOf (hw : store.WellFormed) (machine : Target)
    (bodies : List (TypeId × Definition)) : (store.asOf machine bodies).WellFormed where
  names := hw.names
  builtins := hw.builtins
  noParams := hw.noParams
  shapes type node hn :=
    ⟨(hw.shapes type node hn).base, (hw.shapes type node hn).owner, (hw.shapes type node hn).params⟩
  plain := hw.plain
  sets set params hs := ⟨(hw.sets set params hs).length_lt, (hw.sets set params hs).lt_size⟩

theorem Extends.asOf (h : old.Extends new) (machine : Target)
    (bodies : List (TypeId × Definition)) :
    (old.asOf machine bodies).Extends (new.asOf machine bodies) :=
  ⟨h.names, h.nodes, h.paramSets, List.prefix_refl _⟩

/-- A body that can be fixed as the store is: some draft of the store lists its members, and it is
laid out as it was, or its base is a builtin integer. -/
inductive Fixes (store : Store) : TypeId × Definition → Prop where
  | ofClass {draft : ClassDraft} {body : ClassBody} (opened : draft.OpenIn store)
      (completes : Completes store.names draft body)
      (layout : store.classLayout draft = .ok (body.size, body.align)) :
      Fixes store (draft.type, .ofClass body)
  | ofEnum {draft : EnumDraft} {base : TypeId} {body : EnumBody} {kind : Kind}
      (opened : draft.OpenIn store) (completes : CompletesEnum store.names draft base body)
      (base : store.kind base = .ok kind) (integer : (!kind.isInteger || kind.isNamed) = false) :
      Fixes store (draft.type, .ofEnum body)

/-- Each body could be fixed on `machine` when those before it were, and none of them twice. -/
inductive Traced (store : Store) (machine : Target) : List (TypeId × Definition) → Prop where
  | nil : Traced store machine []
  | snoc {before entry} (earlier : Traced store machine before)
      (fresh : entry.1 ∉ before.map Prod.fst) (fixes : (store.asOf machine before).Fixes entry) :
      Traced store machine (before ++ [entry])

theorem Completes.mono {names names' : Names} (h : names.Extends names') {draft : ClassDraft}
    {body : ClassBody} (hc : Completes names draft body) : Completes names' draft body :=
  ⟨hc.bases, hc.data.imp fun _ _ hn => ⟨h.text hn.1, hn.2⟩,
    hc.functions.imp fun _ _ hn => ⟨h.text hn.1, hn.2⟩⟩

theorem CompletesEnum.mono {names names' : Names} (h : names.Extends names') {draft : EnumDraft}
    {base : TypeId} {body : EnumBody} (hc : CompletesEnum names draft base body) :
    CompletesEnum names' draft base body :=
  ⟨hc.flavor, hc.base, hc.values.imp fun _ _ hn => ⟨h.text hn.1, hn.2⟩⟩

theorem Fixes.mono (h : old.Extends new) (hw : old.WellFormed) (hw' : new.WellFormed)
    (ht : new.target = old.target) {entry : TypeId × Definition} (hf : old.Fixes entry) :
    new.Fixes entry := by
  cases hf with
  | ofClass opened completes layout =>
      exact .ofClass (opened.mono h hw) (completes.mono h.names) (h.classLayout hw hw' ht layout)
  | ofEnum opened completes base integer =>
      obtain ⟨node, hn, hk⟩ := kind_eq_ok.mp base
      exact .ofEnum (opened.mono h hw) (completes.mono h.names)
        (kind_eq_ok.mpr ⟨node, h.node? hn, hk⟩) integer

theorem Traced.mono (h : old.Extends new) (hw : old.WellFormed) (hw' : new.WellFormed)
    {bodies : List (TypeId × Definition)} (ht : old.Traced machine bodies) :
    new.Traced machine bodies := by
  induction ht with
  | nil => exact .nil
  | @snoc before entry _ fresh fixes ih =>
      exact .snoc ih fresh (fixes.mono (h.asOf machine before) (hw.asOf machine before)
        (hw'.asOf machine before) rfl)

/-- A body that was fixed is that of a class or enum without qualifiers, as the body says. -/
theorem Fixes.owner (hw : store.WellFormed) {entry : TypeId × Definition}
    (hf : store.Fixes entry) : ∃ shape, store.node? entry.1 = some (.plain shape) ∧
      match entry.2 with
      | .ofClass _ => ∃ name isStruct, shape = .classType name isStruct
      | .ofEnum _ => ∃ name, shape = .enumType name := by
  cases hf with
  | ofClass opened completes layout =>
      obtain ⟨name, isStruct, hn⟩ := hw.classOwner opened.owner
      exact ⟨_, hn, name, isStruct, rfl⟩
  | ofEnum opened completes base integer =>
      obtain ⟨name, hn⟩ := hw.enumOwner opened.owner
      exact ⟨_, hn, name, rfl⟩

theorem Traced.fixes {bodies : List (TypeId × Definition)} (ht : store.Traced machine bodies)
    {entry : TypeId × Definition} (hm : entry ∈ bodies) :
    ∃ before, (store.asOf machine before).Fixes entry := by
  induction ht with
  | nil => cases hm
  | @snoc before last _ _ fixes ih =>
      rcases List.mem_append.mp hm with hm | hm
      · exact ih hm
      · exact ⟨before, List.mem_singleton.mp hm ▸ fixes⟩

theorem Traced.owner (hw : store.WellFormed) {bodies : List (TypeId × Definition)}
    (ht : store.Traced machine bodies) {entry : TypeId × Definition} (hm : entry ∈ bodies) :
    ∃ shape, store.node? entry.1 = some (.plain shape) ∧
      match entry.2 with
      | .ofClass _ => ∃ name isStruct, shape = .classType name isStruct
      | .ofEnum _ => ∃ name, shape = .enumType name := by
  obtain ⟨before, hf⟩ := ht.fixes hm
  exact hf.owner (hw.asOf machine before)

theorem Traced.nodup {bodies : List (TypeId × Definition)} (ht : store.Traced machine bodies) :
    (bodies.map Prod.fst).Nodup := by
  induction ht with
  | nil => exact List.nodup_nil
  | @snoc before entry _ fresh _ ih =>
      rw [List.map_append]
      refine List.nodup_append.mpr ⟨ih, by simp, fun a ha b hb => ?_⟩
      obtain rfl := List.mem_singleton.mp hb
      exact fun h => fresh (h ▸ ha)

/-- There are no more bodies than types, if no two are of one type. -/
theorem length_le_of_nodup {bodies : List (TypeId × Definition)}
    (hnodup : (bodies.map Prod.fst).Nodup) (hholds : ∀ entry ∈ bodies, store.Holds entry.1) :
    bodies.length ≤ store.nodes.size := by
  have hsub : bodies.map Prod.fst ⊆ store.types := by
    intro type hm
    obtain ⟨entry, he, rfl⟩ := List.mem_map.mp hm
    obtain ⟨node, hn⟩ := hholds entry he
    exact List.mem_map.mpr ⟨entry.1.index, List.mem_range.mpr (lt_size_of_node? hn), rfl⟩
  have hle := (hnodup.subperm hsub).length_le
  simpa [types] using hle

theorem Traced.length_le (hw : store.WellFormed) {bodies : List (TypeId × Definition)}
    (ht : store.Traced machine bodies) : bodies.length ≤ store.nodes.size := by
  refine length_le_of_nodup ht.nodup fun entry he => ?_
  obtain ⟨shape, hn, _⟩ := ht.owner hw he
  exact ⟨_, hn⟩

/-- A class or enum whose body is still open is none of the traced ones. -/
theorem Traced.fresh (hw : store.WellFormed) (ht : store.Traced machine store.definitions)
    {type : TypeId} {shape : Shape TypeId ParamSetId PathId}
    (hn : store.node? type = some (.plain shape))
    (hclass : ∀ name isStruct, shape = .classType name isStruct → store.classBody? type = none)
    (henum : ∀ name, shape = .enumType name → store.enumBody? type = none) :
    type ∉ store.definitions.map Prod.fst := by
  rw [← definition?_eq_none, Option.eq_none_iff_forall_ne_some]
  intro definition hd
  obtain ⟨shape', hn', hshape⟩ := ht.owner hw (mem_of_definition? hd)
  obtain rfl : shape = shape' := by
    rw [hn] at hn'
    cases hn'
    rfl
  cases definition with
  | ofClass body =>
      obtain ⟨name, isStruct, hs⟩ := hshape
      have hb := classBody?_eq_some.mpr hd
      rw [hclass name isStruct hs] at hb
      cases hb
  | ofEnum body =>
      obtain ⟨name, hs⟩ := hshape
      have hb := enumBody?_eq_some.mpr hd
      rw [henum name hs] at hb
      cases hb

/-! ### Steps that keep a store traced -/

/-- From a well-formed store whose bodies are traced, a store grew into another one of that kind,
if it was laid out for `machine` when classes were fixed. -/
structure Follows (machine : Target) (old new : Store) : Prop where
  extends_ : old.Extends new
  wellFormed : new.WellFormed
  target : new.target = old.target
  traced : old.Traced machine old.definitions →
    (∀ added type body, new.definitions = old.definitions ++ added →
      (type, .ofClass body) ∈ added → old.target = machine) → new.Traced machine new.definitions

theorem Grows.follows (h : old.Grows new) (hw : old.WellFormed) (machine : Target) :
    Follows machine old new where
  extends_ := h.extends_
  wellFormed := h.wellFormed
  target := h.target
  traced ht _ := h.definitions ▸ ht.mono h.extends_ hw h.wellFormed

theorem Follows.trans {a b c : Store} (hab : Follows machine a b) (hbc : Follows machine b c) :
    Follows machine a c where
  extends_ := hab.extends_.trans hbc.extends_
  wellFormed := hbc.wellFormed
  target := hbc.target.trans hab.target
  traced ht hm := by
    obtain ⟨first, hfirst⟩ := hab.extends_.definitions
    obtain ⟨last, hlast⟩ := hbc.extends_.definitions
    refine hbc.traced (hab.traced ht fun added type body heq hmem => ?_)
      fun added type body heq hmem => ?_
    · refine hm (added ++ last) type body ?_ (List.mem_append_left _ hmem)
      rw [← hlast, heq, List.append_assoc]
    · rw [hab.target]
      refine hm (first ++ added) type body ?_ (List.mem_append_right _ hmem)
      rw [heq, ← hfirst, List.append_assoc]

/-- Fixing one more body that can be fixed. -/
theorem Follows.defining (hw : old.WellFormed) {names : Names} (h : old.names.Extends names)
    (hc : old.names.Closed → names.Closed) {type : TypeId} {definition : Definition}
    (hfresh : old.Traced machine old.definitions → type ∉ old.definitions.map Prod.fst)
    (hf : old.target = machine ∨ (∀ body, definition ≠ .ofClass body) →
      (({ old with names } : Store).asOf machine old.definitions).Fixes (type, definition)) :
    Follows machine old (old.defining names type definition) where
  extends_ := extends_defining h type definition
  wellFormed := hw.defining h (hc hw.names) type definition
  target := rfl
  traced ht hm := by
    have hext := extends_defining h type definition
    have hw' := hw.defining h (hc hw.names) type definition
    refine .snoc (ht.mono hext hw hw') (hfresh ht) ?_
    refine hf ?_
    cases definition with
    | ofClass body => exact Or.inl (hm _ type body rfl List.mem_cons_self)
    | ofEnum body => exact Or.inr (by simp)

end Store

namespace Build

open Store

variable {machine : Target} {store : Store}

theorem follows_completeClass (hw : store.WellFormed) {draft : ClassDraft}
    (ho : draft.OpenIn store) : Follows machine store (after (completeClass draft) store) := by
  obtain ⟨names, hext, hc, h | ⟨data, functions, size, align, hopen, hd, hf, hl, h⟩⟩ :=
    after_completeClass draft store
  · exact h ▸ (hw.grows_withNames hext (hc hw.names)).follows hw machine
  · have hlater : store.Extends (({ store with names } : Store).asOf machine store.definitions) :=
      ⟨hext, .refl _, .refl _, List.prefix_refl _⟩
    rw [h]
    refine .defining hw hext hc (fun ht => ?_) fun hm => ?_
    · obtain ⟨name, isStruct, hn⟩ := hw.classOwner ho.owner
      exact ht.fresh hw hn (fun _ _ _ => hopen) (by simp)
    · obtain rfl : store.target = machine := hm.elim id fun h => absurd rfl (h _)
      have hw' := (hw.grows_withNames hext (hc hw.names)).wellFormed.asOf store.target
        store.definitions
      exact .ofClass (ho.mono hlater hw) ⟨rfl, hd, hf⟩ (hlater.classLayout hw hw' rfl hl)

theorem follows_completeEnum (hw : store.WellFormed) {draft : EnumDraft}
    (ho : draft.OpenIn store) (base : TypeId) :
    Follows machine store (after (completeEnum draft base) store) := by
  obtain ⟨names, hext, hc, h | ⟨values, kind, hopen, hv, hk, hi, h⟩⟩ :=
    after_completeEnum draft base store
  · exact h ▸ (hw.grows_withNames hext (hc hw.names)).follows hw machine
  · have hlater : store.Extends (({ store with names } : Store).asOf machine store.definitions) :=
      ⟨hext, .refl _, .refl _, List.prefix_refl _⟩
    rw [h]
    refine .defining hw hext hc (fun ht => ?_) fun _ => ?_
    · obtain ⟨name, hn⟩ := hw.enumOwner ho.owner
      exact ht.fresh hw hn (by simp) fun _ _ => hopen
    · exact .ofEnum (ho.mono hlater hw) ⟨rfl, rfl, hv⟩ hk hi

theorem follows_completeBody (hw : store.WellFormed) {body : OpenBody} (ho : body.OpenIn store) :
    Follows machine store (after (completeBody body) store) := by
  cases body with
  | ofClass draft => exact follows_completeClass hw ho
  | ofEnum draft base => exact follows_completeEnum hw ho base

/-- The other bodies are completed only if the first one was. -/
theorem run_completeAll_cons (body : OpenBody) (bodies : List OpenBody) (store : Store) :
    completeAll (body :: bodies) store = match completeBody body store with
      | .ok _ mid => completeAll bodies mid
      | .error failure mid => .error failure mid := by
  have hcons : completeAll (body :: bodies) =
      (completeBody body >>= fun _ => pure ()) >>= fun _ => completeAll bodies := rfl
  rw [hcons, run_bind, run_bind]
  cases completeBody body store <;> rfl

/-- One more body is completed after the others. -/
theorem run_completeAll_concat {bodies : List OpenBody} {body : OpenBody} {mid new : Store}
    {type : TypeId} (hb : completeBody body mid = .ok type new) :
    ∀ {store : Store}, completeAll bodies store = .ok () mid →
      completeAll (bodies ++ [body]) store = .ok () new := by
  induction bodies with
  | nil =>
      intro store h
      cases h
      rw [List.nil_append, run_completeAll_cons, hb]
      rfl
  | cons first bodies ih =>
      intro store h
      rw [List.cons_append, run_completeAll_cons]
      rw [run_completeAll_cons] at h
      cases hf : completeBody first store with
      | ok _ next =>
          rw [hf] at h
          exact ih h
      | error failure next =>
          rw [hf] at h
          cases h

/-- Completing bodies in turn, whether all succeed or one fails. -/
theorem follows_completeAll {bodies : List OpenBody} :
    ∀ {store : Store}, store.WellFormed → (∀ body ∈ bodies, body.OpenIn store) →
      Follows machine store (after (completeAll bodies) store) := by
  induction bodies with
  | nil => exact fun hw _ => hw.grows.follows hw machine
  | cons body bodies ih =>
      intro store hw ho
      have hfirst : Follows machine store (after (completeBody body) store) :=
        follows_completeBody hw (ho body List.mem_cons_self)
      simp only [after] at hfirst
      rw [after, run_completeAll_cons]
      cases hb : completeBody body store with
      | error failure mid =>
          rw [hb] at hfirst
          exact hfirst
      | ok type mid =>
          rw [hb] at hfirst
          exact hfirst.trans (ih hfirst.wellFormed fun other hm =>
            (ho other (List.mem_cons_of_mem body hm)).mono hfirst.extends_ hw)

end Build

/-! ### Runs -/

/-- The drafts that a request completes were opened in the store. -/
def Request.OpenIn (store : Store) : Request → Prop
  | .completeClass draft => draft.OpenIn store
  | .completeEnum draft _ => draft.OpenIn store
  | .completeAll bodies => ∀ body ∈ bodies, body.OpenIn store
  | _ => True

/-- Every request but the one for another machine keeps a store traced. -/
theorem Request.follows {request : Request} (hr : request.Countable) {store : Store}
    (ho : request.OpenIn store) (hw : store.WellFormed) (machine : Target) :
    (∃ target, request = .retarget target) ∨
      Store.Follows machine store (request.effect store) := by
  cases request with
  | retarget target => exact Or.inl ⟨target, rfl⟩
  | completeClass draft => exact Or.inr (Build.follows_completeClass hw ho)
  | completeEnum draft base => exact Or.inr (Build.follows_completeEnum hw ho base)
  | completeAll bodies => exact Or.inr (Build.follows_completeAll hw ho)
  | _ => exact Or.inr ((safe_effect hr trivial store hw).follows hw machine)

namespace Store

variable {store old new : Store} {machine : Target}

/-- One request was made. It completed drafts of the store only, and fixed classes only while the
store laid types out for `machine`. -/
structure StepFor (machine : Target) (old new : Store) : Prop where
  request : ∃ request : Request, request.Countable ∧ request.OpenIn old ∧
    request.effect old = new
  machine : ∀ added type body, new.definitions = old.definitions ++ added →
    (type, .ofClass body) ∈ added → old.target = machine

/-- A store that such requests led to from a new one. -/
def ReachableFor (machine : Target) (store : Store) : Prop :=
  ∃ target, Relation.ReflTransGen (StepFor machine) (Store.new target) store

theorem reachableFor_new (machine target : Target) : (Store.new target).ReachableFor machine :=
  ⟨target, .refl⟩

/-- While the store lays types out for `machine`, every request on drafts of its own may be made. -/
theorem ReachableFor.effect (h : store.ReachableFor machine) {request : Request}
    (hr : request.Countable) (ho : request.OpenIn store) (hm : store.target = machine) :
    (request.effect store).ReachableFor machine := by
  obtain ⟨target, hruns⟩ := h
  exact ⟨target, hruns.tail ⟨⟨request, hr, ho, rfl⟩, fun _ _ _ _ _ => hm⟩⟩

theorem StepFor.step (h : StepFor machine old new) : old.Step new := by
  obtain ⟨request, hr, _, heq⟩ := h.request
  exact ⟨request, hr, heq⟩

theorem ReachableFor.reachable (h : store.ReachableFor machine) : store.Reachable := by
  obtain ⟨target, hruns⟩ := h
  have hstep : StepFor machine ≤ Step := fun _ _ h => h.step
  exact ⟨target, Relation.ReflTransGen.mono hstep _ _ hruns⟩

/-- Completing tables that were read into the store is one of these requests. -/
theorem ReachableFor.completeAll (h : store.ReachableFor machine) (hm : store.target = machine)
    {items rest : List Item} {bodies : List OpenBody} {mid : Store}
    (hl : Load.tables ⟨store, items⟩ = .ok bodies ⟨mid, rest⟩) :
    ((Request.completeAll bodies).effect mid).ReachableFor machine := by
  have hw := h.reachable.wellFormed
  have hmid : mid = (Request.loadTables items).effect store := by
    rw [Request.effect, after_of_ok hl]
  have hreach : mid.ReachableFor machine := hmid ▸ h.effect trivial trivial hm
  have hread := Load.gives_tables ⟨store, items⟩ hw
  have hgrows := hread.grows
  rw [after_of_ok hl] at hgrows
  exact hreach.effect trivial (fun body hb => (hread.gives bodies _ hl body hb).1)
    (hgrows.target.trans hm)

theorem StepFor.traced (h : StepFor machine old new) (hw : old.WellFormed)
    (ht : old.Traced machine old.definitions) : new.Traced machine new.definitions := by
  obtain ⟨request, hr, ho, rfl⟩ := h.request
  rcases request.follows hr ho hw machine with ⟨target, rfl⟩ | hf
  · obtain ⟨hext, hw'⟩ := hw.grows_aside target old.settled
    exact ht.mono hext hw hw'
  · exact hf.traced ht h.machine

/-- Each body of such a store can be fixed again from the ones before it. -/
theorem ReachableFor.traced (h : store.ReachableFor machine) :
    store.Traced machine store.definitions := by
  obtain ⟨target, hruns⟩ := h
  induction hruns with
  | refl => exact .nil
  | @tail mid new hmid hstep ih =>
      have hreach : mid.ReachableFor machine := ⟨target, hmid⟩
      exact hstep.traced hreach.reachable.wellFormed ih

end Store

end TypeGraph

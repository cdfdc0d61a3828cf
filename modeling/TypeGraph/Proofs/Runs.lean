import Mathlib.Logic.Relation
import TypeGraph.Completeness
import TypeGraph.Proofs.Harmless

/-!
Runs of requests on one store. Main statement: along every run, whichever requests succeed or fail,
the store only grows and stays well-formed (`Store.Runs.onward`, `Store.Reachable.wellFormed`).
-/

namespace TypeGraph

/-- From a well-formed store, a store grew into another one, which may have more bodies and lay
types out for another machine. -/
def Store.Onward (old new : Store) : Prop := old.WellFormed → old.Extends new ∧ new.WellFormed

namespace Store

variable {store old new : Store}

theorem Onward.refl (store : Store) : store.Onward store := fun h => ⟨.refl store, h⟩

instance : Std.Refl Onward := ⟨Onward.refl⟩

instance : Trans Onward Onward Onward where
  trans hab hbc := by
    intro h
    obtain ⟨hext, hw⟩ := hab h
    obtain ⟨hext', hw'⟩ := hbc hw
    exact ⟨hext.trans hext', hw'⟩

theorem Safe.onward (h : old.Safe new) : old.Onward new :=
  fun hw => ⟨(h hw).extends_, (h hw).wellFormed⟩

theorem onward_withNames {names : Names} (h : store.names.Extends names)
    (hc : store.names.Closed → names.Closed) : store.Onward { store with names } :=
  fun hw => ⟨extends_withNames h, (hw.grows_withNames h (hc hw.names)).wellFormed⟩

theorem onward_defining {names : Names} (h : store.names.Extends names)
    (hc : store.names.Closed → names.Closed) (type : TypeId) (definition : Definition) :
    store.Onward (store.defining names type definition) :=
  fun hw => ⟨extends_defining h type definition, hw.defining h (hc hw.names) type definition⟩

end Store

namespace Build

open Store

variable {α : Type}

/-! ### Completions -/

/-- What entering names keeps, with or without one more body, completing a body keeps. -/
theorem keeps_completing {R : Store → Store → Prop}
    (hnames : ∀ {store : Store} {names : Names}, store.names.Extends names →
      (store.names.Closed → names.Closed) → R store { store with names })
    (hdefining : ∀ {store : Store} {names : Names}, store.names.Extends names →
      (store.names.Closed → names.Closed) → ∀ type definition,
        R store (store.defining names type definition))
    (body : OpenBody) : Keeps R (completeBody body) := by
  intro store
  cases body with
  | ofClass draft =>
      obtain ⟨names, hext, hc, h | ⟨_, _, _, _, _, _, _, _, h⟩⟩ := after_completeClass draft store
      · exact h ▸ hnames hext hc
      · exact h ▸ hdefining hext hc _ _
  | ofEnum draft base =>
      obtain ⟨names, hext, hc, h | ⟨_, _, _, _, _, _, h⟩⟩ := after_completeEnum draft base store
      · exact h ▸ hnames hext hc
      · exact h ▸ hdefining hext hc _ _

theorem keeps_completeBody (body : OpenBody) : Keeps Onward (completeBody body) :=
  keeps_completing onward_withNames onward_defining body

theorem keeps_completeClass (draft : ClassDraft) : Keeps Onward (completeClass draft) :=
  keeps_completeBody (.ofClass draft)

theorem keeps_completeEnum (draft : EnumDraft) (base : TypeId) :
    Keeps Onward (completeEnum draft base) :=
  keeps_completeBody (.ofEnum draft base)

/-- What fixing a class and fixing an enum keep, fixing either keeps. -/
theorem keeps_body {R : Store → Store → Prop} (hclass : ∀ draft, Keeps R (completeClass draft))
    (henum : ∀ draft base, Keeps R (completeEnum draft base)) (body : OpenBody) :
    Keeps R (completeBody body) := by
  cases body with
  | ofClass draft => exact hclass draft
  | ofEnum draft base => exact henum draft base

/-- What fixing each of the bodies keeps, fixing them in turn keeps. -/
theorem keeps_each {R : Store → Store → Prop} [Std.Refl R] [Trans R R R] {bodies : List OpenBody}
    (h : ∀ body ∈ bodies, Keeps R (completeBody body)) : Keeps R (completeAll bodies) := by
  induction bodies with
  | nil => exact Keeps.pure ()
  | cons body bodies ih =>
      refine ((h body List.mem_cons_self).bind fun _ => Keeps.pure ()).bind fun _ => ?_
      exact ih fun other hm => h other (List.mem_cons_of_mem body hm)

/-- What fixing a class and fixing an enum keep, fixing any bodies in turn keeps. -/
theorem keeps_bodies {R : Store → Store → Prop} [Std.Refl R] [Trans R R R]
    (hclass : ∀ draft, Keeps R (completeClass draft))
    (henum : ∀ draft base, Keeps R (completeEnum draft base)) (bodies : List OpenBody) :
    Keeps R (completeAll bodies) :=
  keeps_each fun body _ => keeps_body hclass henum body

theorem keeps_completeAll (bodies : List OpenBody) : Keeps Onward (completeAll bodies) :=
  keeps_each fun body _ => keeps_completeBody body

/-! ### Noting what is complete -/

section Noting

variable {R : Store → Store → Prop} [Std.Refl R] [Trans R R R]

theorem keeps_allM {f : α → Build Bool} {as : List α} (h : ∀ a ∈ as, Keeps R (f a)) :
    Keeps R (as.allM f) := by
  induction as with
  | nil => exact Keeps.pure true
  | cons a as ih =>
      rw [List.allM]
      refine (h a List.mem_cons_self).bind fun holds => ?_
      cases holds with
      | true => exact ih fun b hb => h b (List.mem_cons_of_mem a hb)
      | false => exact Keeps.pure false

/-- What every note keeps, asking whether a type is complete keeps. -/
theorem keeps_isComplete (h : ∀ type, Keeps R (settle type)) (type : TypeId) :
    Keeps R (Build.isComplete type) := by
  induction hi : type.index using Nat.strongRecOn generalizing type with
  | _ i ih =>
      subst hi
      have hpart : ∀ part : Below type, Keeps R (Build.isComplete part.type) :=
        fun part => ih part.type.index part.older part.type rfl
      rw [Build.isComplete]
      refine Keeps.bind (fun store => Std.Refl.refl store) fun store => ?_
      split
      · exact Keeps.pure true
      · refine (keeps_query _).bind fun view => ?_
        cases view with
        | array base extent =>
            dsimp only
            split
            · exact hpart base
            · exact Keeps.pure false
        | bitfield base bits offset => exact hpart base
        | tuple parts =>
            refine (keeps_allM fun part _ => hpart part).bind fun complete => ?_
            cases complete with
            | true => exact (h type).bind fun _ => Keeps.pure true
            | false => exact Keeps.pure false
        | classType name isStruct => exact keeps_query _
        | enumType name => exact keeps_query _
        | _ => exact Keeps.pure _

end Noting

theorem keeps_settle (type : TypeId) : Keeps Safe (settle type) := by
  intro store hw
  obtain ⟨hext, hw'⟩ := hw.grows_aside store.target (type :: store.settled)
  exact ⟨hext, rfl, rfl, hw'⟩

end Build

/-! ### Requests -/

/-- Everything that may be asked of a store and may change it. -/
inductive Request where
  | intern (text : String)
  | extend (parent : PathId) (keyword : Keyword)
  | child (parent : PathId) (text : String)
  | path (texts : List String)
  | retarget (target : Target)
  | params (types : List TypeId) (variadic : Bool)
  | enter (asked : TypeRequest)
  | qualify (type : TypeId) (qual : Qual PathId)
  | addQual (type : TypeId) (qual : Qual PathId)
  | isComplete (type : TypeId)
  | completeClass (draft : ClassDraft)
  | completeEnum (draft : EnumDraft) (base : TypeId)
  | loadKeyword (items : List Item)
  | loadPath (items : List Item)
  | loadType (items : List Item)
  | loadTables (items : List Item)
  | completeAll (bodies : List OpenBody)

namespace Request

/-- The store that a request leaves, whether it succeeds or fails. -/
def effect (store : Store) : Request → Store
  | .intern text => after (Build.intern text) store
  | .extend parent keyword => after (Build.extend parent keyword) store
  | .child parent text => after (Build.child parent text) store
  | .path texts => after (Build.path texts) store
  | .retarget target => store.withTarget target
  | .params types variadic => after (Build.params types variadic) store
  | .enter asked => after asked.run store
  | .qualify type qual => after (Build.qualify type qual) store
  | .addQual type qual => after (Build.addQual type qual) store
  | .isComplete type => after (Build.isComplete type) store
  | .completeClass draft => after (Build.completeClass draft) store
  | .completeEnum draft base => after (Build.completeEnum draft base) store
  | .loadKeyword items => (after Load.keyword ⟨store, items⟩).store
  | .loadPath items => (after Load.path ⟨store, items⟩).store
  | .loadType items => (after Load.type ⟨store, items⟩).store
  | .loadTables items => (after Load.tables ⟨store, items⟩).store
  | .completeAll bodies => after (Build.completeAll bodies) store

/-- A list of types that is handed over is counted in 64 bits. -/
def Countable : Request → Prop
  | .params types _ => types.length < UInt64.size
  | .enter asked => asked.Countable
  | _ => True

/-- A request that neither completes anything nor is for another machine. -/
def OnlyAdds : Request → Prop
  | .retarget _ | .completeClass _ | .completeEnum _ _ | .completeAll _ => False
  | _ => True

/-- Names, types and parameter lists are all that such a request adds. -/
theorem safe_effect {request : Request} (hr : request.Countable) (ho : request.OnlyAdds)
    (store : Store) : store.Safe (request.effect store) := by
  cases request with
  | intern text => exact Build.keeps_intern text store
  | extend parent keyword => exact Build.keeps_extend parent keyword store
  | child parent text => exact Build.keeps_child parent text store
  | path texts => exact Build.keeps_path texts store
  | params types variadic => exact Build.keeps_params hr variadic store
  | enter asked => exact TypeRequest.keeps_run hr store
  | qualify type qual => exact Build.keeps_qualify type qual store
  | addQual type qual => exact Build.keeps_addQual type qual store
  | isComplete type => exact Build.keeps_isComplete Build.keeps_settle type store
  | loadKeyword items => exact fun hw => (Load.gives_keyword ⟨store, items⟩ hw).grows
  | loadPath items => exact fun hw => (Load.gives_path ⟨store, items⟩ hw).grows
  | loadType items => exact fun hw => (Load.gives_type ⟨store, items⟩ hw).grows
  | loadTables items => exact fun hw => (Load.gives_tables ⟨store, items⟩ hw).grows
  | retarget | completeClass | completeEnum | completeAll => exact ho.elim

/-- No request takes anything from a store. -/
theorem onward_effect {request : Request} (hr : request.Countable) (store : Store) :
    store.Onward (request.effect store) := by
  cases request with
  | retarget target => exact fun hw => hw.grows_aside target store.settled
  | completeClass draft => exact Build.keeps_completeClass draft store
  | completeEnum draft base => exact Build.keeps_completeEnum draft base store
  | completeAll bodies => exact Build.keeps_completeAll bodies store
  | _ => exact (safe_effect hr trivial store).onward

end Request

namespace Store

variable {store old new : Store}

/-- One request was made. -/
def Step (old new : Store) : Prop :=
  ∃ request : Request, request.Countable ∧ request.effect old = new

/-- Any number of requests were made, in any order. -/
def Runs : Store → Store → Prop := Relation.ReflTransGen Step

/-- A store that requests led to from a new one. -/
def Reachable (store : Store) : Prop := ∃ target, Runs (Store.new target) store

theorem step_effect {request : Request} (hr : request.Countable) (store : Store) :
    store.Step (request.effect store) := ⟨request, hr, rfl⟩

theorem reachable_new (target : Target) : (Store.new target).Reachable := ⟨target, .refl⟩

theorem Reachable.effect (h : store.Reachable) {request : Request} (hr : request.Countable) :
    (request.effect store).Reachable := by
  obtain ⟨target, hruns⟩ := h
  exact ⟨target, hruns.tail (step_effect hr store)⟩

theorem Step.onward (h : old.Step new) : old.Onward new := by
  obtain ⟨request, hr, rfl⟩ := h
  exact request.onward_effect hr old

theorem Runs.onward (h : old.Runs new) : old.Onward new := by
  induction h with
  | refl => exact Std.Refl.refl old
  | tail _ hstep ih => exact Trans.trans ih hstep.onward

theorem Reachable.wellFormed (h : store.Reachable) : store.WellFormed := by
  obtain ⟨target, hruns⟩ := h
  exact (hruns.onward (wellFormed_new target)).2

theorem Reachable.runs (h : old.Reachable) (hruns : old.Runs new) : new.Reachable := by
  obtain ⟨target, hold⟩ := h
  exact ⟨target, hold.trans hruns⟩

end Store

end TypeGraph

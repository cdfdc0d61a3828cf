import TypeGraph.Proofs.History

/-!
Layouts and completions that are refused but are never at fault. Main statements: asked about types
it holds, a store that requests led to answers or refuses (`Store.Sound.faultless_size`), and bodies
over such types are completed or refused (`Build.faultless_completeAll`). Whatever the requests
were, such a store goes on to hold what it holds and the types of its enums (`Store.Runs.lasting`).
-/

namespace TypeGraph

/-! ### Layouts -/

namespace Store

variable {store old new : Store}

theorem Holds.below {whole : TypeId} (h : store.Holds whole) (part : Below whole) :
    store.Holds part.type := by
  obtain ⟨node, hn⟩ := h
  exact node?_of_lt (Nat.lt_trans part.older (lt_size_of_node? hn))

/-- A well-formed store that holds the types its enums are stored as. -/
structure Sound (store : Store) : Prop where
  wellFormed : store.WellFormed
  based : ∀ type body, (type, .ofEnum body) ∈ store.definitions → store.Holds body.base

namespace Sound

variable {type : TypeId}

theorem faultless_enumStorage (hs : store.Sound) (h : store.Holds type) :
    Faultless (store.enumStorage type) := by
  refine h.enumBody.bind fun body hb => ?_
  obtain ⟨owner, _, hd⟩ := enumBody_eq_ok.mp hb
  have hbase := hs.based owner body (mem_of_definition? hd)
  exact (hbase.shape.bind fun _ _ => .pure _).bind fun _ _ => .orFail _ _

theorem faultless_pointerSize (h : store.Holds type) : Faultless (store.pointerSize type) :=
  h.qual.bind fun _ _ => .pure _

theorem faultless_view (hs : store.Sound) (h : store.Holds type) : Faultless (store.view type) := by
  obtain ⟨node, hn⟩ := h
  obtain ⟨view, hv⟩ := hs.wellFormed.view hn
  exact .of_ok hv

theorem faultless_align (hs : store.Sound) (h : store.Holds type) :
    Faultless (store.align type) := by
  induction hi : type.index using Nat.strongRecOn generalizing type with
  | _ i ih =>
      subst hi
      have hpart (part : Below type) : Faultless (store.align part.type) :=
        ih part.type.index part.older (h.below part) rfl
      rw [Store.align]
      refine (hs.faultless_view h).bind fun view _ => ?_
      cases view with
      | builtin builtin => exact .orFail _ _
      | array base extent =>
          dsimp only
          split
          · exact hpart base
          · exact .throw _
      | bitfield base bits offset => exact hpart base
      | pointer base | leftRef base | rightRef base =>
          exact (faultless_pointerSize (h.below base)).bind fun _ _ => .pure _
      | memberPointer owner base => exact .pure _
      | function ret params conv | memberFunction owner ret params conv => exact .throw _
      | tuple parts =>
          exact .foldlM (fun _ part _ => ((hpart part).blame type).bind fun _ _ => .pure _) _
      | classType name isStruct => exact h.classBody.bind fun _ _ => .pure _
      | enumType name => exact (hs.faultless_enumStorage h).bind fun _ _ => .orFail _ _

theorem faultless_size (hs : store.Sound) (h : store.Holds type) :
    Faultless (store.size type) := by
  induction hi : type.index using Nat.strongRecOn generalizing type with
  | _ i ih =>
      subst hi
      have hpart (part : Below type) : Faultless (store.size part.type) :=
        ih part.type.index part.older (h.below part) rfl
      rw [Store.size]
      refine (hs.faultless_view h).bind fun view _ => ?_
      cases view with
      | builtin builtin => exact .orFail _ _
      | array base extent =>
          cases extent with
          | fixed count => exact (hpart base).bind fun _ _ => .orFail _ _
          | _ => exact .throw _
      | bitfield base bits offset =>
          refine (hpart base).bind fun unit _ => ?_
          dsimp only
          split
          · exact .pure _
          · exact .orFail _ _
      | pointer base | leftRef base | rightRef base => exact faultless_pointerSize (h.below base)
      | memberPointer owner base => exact .pure _
      | function ret params conv | memberFunction owner ret params conv => exact .throw _
      | tuple parts =>
          refine Faultless.bind (.foldlM (fun _ part _ => ?_) _) fun _ _ => .orFail _ _
          exact ((hpart part).blame type).bind fun _ _ => .orFail _ _
      | classType name isStruct => exact h.classBody.bind fun _ _ => .pure _
      | enumType name => exact (hs.faultless_enumStorage h).bind fun _ _ => .orFail _ _

theorem faultless_classLayout (hs : store.Sound) {draft : ClassDraft}
    (hbases : ∀ base ∈ draft.bases, store.Holds base.type)
    (hdata : ∀ member ∈ draft.data, store.Holds member.type) :
    Faultless (store.classLayout draft) := by
  refine Faultless.bind (Faultless.bind (.foldlM (fun reach base hm => ?_) _) fun reach _ =>
    .foldlM (fun reach member hm => ?_) _) fun _ _ => (Faultless.orFail _ _).bind fun _ _ => .pure _
  · have h := hbases base hm
    exact h.classOwner.bind fun _ _ => (hs.faultless_size h).bind fun _ _ =>
      (hs.faultless_align h).bind fun _ _ => .pure _
  · have h := hdata member hm
    exact (hs.faultless_size h).bind fun _ _ => (Faultless.orFail _ _).bind fun _ _ =>
      (hs.faultless_align h).bind fun _ _ => .pure _

end Sound

end Store

/-! ### Completions -/

namespace Store

variable {store old new : Store}

/-- From a sound store, a store grew into another sound one. -/
def Lasting (old new : Store) : Prop := old.Sound → old.Extends new ∧ new.Sound

theorem Lasting.refl (store : Store) : store.Lasting store := fun h => ⟨.refl store, h⟩

instance : Std.Refl Lasting := ⟨Lasting.refl⟩

instance : Trans Lasting Lasting Lasting where
  trans hab hbc := by
    intro h
    obtain ⟨hext, hs⟩ := hab h
    obtain ⟨hext', hs'⟩ := hbc hs
    exact ⟨hext.trans hext', hs'⟩

/-- Only the enums that are new have to be looked at. -/
theorem Onward.lasting (h : old.Onward new)
    (hnew : ∀ type body, (type, .ofEnum body) ∈ new.definitions →
      (type, .ofEnum body) ∈ old.definitions ∨ old.Holds body.base) : old.Lasting new := by
  intro hs
  obtain ⟨hext, hw⟩ := h hs.wellFormed
  refine ⟨hext, hw, fun type body hm => ?_⟩
  rcases hnew type body hm with hold | hbase
  · exact (hs.based type body hold).mono hext
  · exact hbase.mono hext

theorem Safe.lasting (h : old.Safe new) : old.Lasting new := by
  intro hs
  refine h.onward.lasting (fun type body hm => ?_) hs
  rw [(h hs.wellFormed).definitions] at hm
  exact Or.inl hm

end Store

namespace Build

open Store

variable {store : Store}

theorem lasting_completeClass (draft : ClassDraft) : Keeps Lasting (completeClass draft) := by
  intro store
  exact (keeps_completeClass draft store).lasting fun type body hm =>
    Or.inl (ofEnum_of_completeClass hm)

/-- The base of an enum was looked up before its body was fixed. -/
theorem lasting_completeEnum (draft : EnumDraft) (base : TypeId) :
    Keeps Lasting (completeEnum draft base) := by
  intro store
  refine (keeps_completeEnum draft base store).lasting fun type body hm => ?_
  refine (ofEnum_of_completeEnum hm).imp id ?_
  rintro ⟨kind, hk, _⟩
  obtain ⟨node, hn, _⟩ := kind_eq_ok.mp hk
  exact ⟨node, hn⟩

theorem lasting_completeAll (bodies : List OpenBody) : Keeps Lasting (completeAll bodies) :=
  keeps_bodies lasting_completeClass lasting_completeEnum bodies

/-- Completing bodies enters no types. -/
theorem labelled_completeAll (bodies : List OpenBody) : Keeps StaysLabelled (completeAll bodies) :=
  keeps_each fun body _ => keeps_completing (fun hext _ h => h.mono rfl hext)
    (fun hext _ _ _ h => h.mono rfl hext) body

theorem faultless_completeClass (hs : store.Sound) {draft : ClassDraft}
    (ho : draft.OpenIn store) (hh : draft.HeldBy store) :
    Faultless (outcome (completeClass draft) store) := by
  obtain ⟨name, isStruct, hn⟩ := hs.wellFormed.classOwner ho.owner
  have hlayout := hs.faultless_classLayout hh.bases hh.data
  obtain ⟨names, data, functions, _, _, _, _, hrun⟩ := run_completeClass draft store
  rw [outcome, hrun, shape_eq_ok.mpr ⟨_, hn, rfl⟩]
  cases store.classBody? draft.type with
  | some body => exact .refused _
  | none =>
      cases hl : store.classLayout draft with
      | ok layout => exact .pure _
      | error failure =>
          rw [hl] at hlayout
          exact .stop hlayout

theorem faultless_completeEnum (hs : store.Sound) {draft : EnumDraft} (ho : draft.OpenIn store)
    {base : TypeId} (hb : store.Holds base) :
    Faultless (outcome (completeEnum draft base) store) := by
  obtain ⟨name, hn⟩ := hs.wellFormed.enumOwner ho.owner
  obtain ⟨node, hnode⟩ := hb
  obtain ⟨names, values, _, _, _, hrun⟩ := run_completeEnum draft base store
  rw [outcome, hrun, shape_eq_ok.mpr ⟨_, hn, rfl⟩, kind_eq_ok.mpr ⟨node, hnode, rfl⟩]
  cases store.enumBody? draft.type with
  | some body => exact .refused _
  | none =>
      cases hi : !node.shape.kind.isInteger || node.shape.kind.isNamed with
      | true =>
          simp only [answered, Option.isSome_none, Bool.false_eq_true, if_false, hi, if_true]
          exact .refused _
      | false =>
          simp only [answered, Option.isSome_none, Bool.false_eq_true, if_false, hi]
          exact .pure _

theorem faultless_completeBody (hs : store.Sound) {body : OpenBody} (ho : body.OpenIn store)
    (hh : body.HeldBy store) : Faultless (outcome (completeBody body) store) := by
  cases body with
  | ofClass draft => exact faultless_completeClass hs ho hh
  | ofEnum draft base => exact faultless_completeEnum hs ho hh

/-- Bodies over types of the store are completed or refused, one after the other. -/
theorem faultless_completeAll {bodies : List OpenBody} (hs : store.Sound)
    (ho : ∀ body ∈ bodies, body.OpenIn store) (hh : ∀ body ∈ bodies, body.HeldBy store) :
    Faultless (outcome (completeAll bodies) store) := by
  induction bodies generalizing store with
  | nil => exact .pure ()
  | cons body bodies ih =>
      have hfirst := faultless_completeBody hs (ho body List.mem_cons_self)
        (hh body List.mem_cons_self)
      obtain ⟨hext, hs'⟩ := keeps_body lasting_completeClass lasting_completeEnum body store hs
      rw [outcome, run_completeAll_cons]
      rw [outcome] at hfirst
      rw [after] at hext hs'
      cases hb : completeBody body store with
      | error failure mid =>
          rw [hb] at hfirst
          exact .stop hfirst
      | ok type mid =>
          -- The other bodies are still open and over types of the store, which only grew.
          rw [hb] at hext hs'
          exact ih hs'
            (fun other hm => (ho other (List.mem_cons_of_mem body hm)).mono hext hs.wellFormed)
            (fun other hm => (hh other (List.mem_cons_of_mem body hm)).mono hext)

end Build

/-! ### Runs -/

/-- No request makes a sound store unsound. -/
theorem Request.lasting_effect {request : Request} (hr : request.Countable) (store : Store) :
    store.Lasting (request.effect store) := by
  cases request with
  | retarget target =>
      exact Store.Onward.lasting (fun hw => hw.grows_aside target store.settled)
        fun _ _ hm => Or.inl hm
  | completeClass draft => exact Build.lasting_completeClass draft store
  | completeEnum draft base => exact Build.lasting_completeEnum draft base store
  | completeAll bodies => exact Build.lasting_completeAll bodies store
  | _ => exact (safe_effect hr trivial store).lasting

namespace Store

variable {store old new : Store}

/-- What a store holds it goes on to hold, and it stays sound. -/
theorem Runs.lasting (h : old.Runs new) : old.Lasting new := by
  induction h with
  | refl => exact Std.Refl.refl old
  | tail _ hstep ih =>
      obtain ⟨request, hr, rfl⟩ := hstep
      exact Trans.trans ih (request.lasting_effect hr _)

theorem Reachable.sound (h : store.Reachable) : store.Sound := by
  obtain ⟨target, hruns⟩ := h
  refine (hruns.lasting ⟨wellFormed_new target, fun type body hm => ?_⟩).2
  cases hm

end Store

end TypeGraph

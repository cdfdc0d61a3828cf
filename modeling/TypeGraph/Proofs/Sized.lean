import TypeGraph.Proofs.Settling

/-!
Which types have an alignment and a size. Main statement: in a store that requests led to, the
complete types are those with an alignment, and a complete type has a size unless that varies or
does not fit in 64 bits (`Store.Reachable.complete_iff_aligned`).
-/

namespace TypeGraph

variable {α β : Type}

/-- A size that is known, that varies, or that is too large. -/
inductive Measured : Except Failure α → Prop where
  | known (a : α) : Measured (.ok a)
  | varies (type : TypeId) : Measured (.error (.type (.variableSize type)))
  | overflows (type : TypeId) : Measured (.error (.type (.sizeOverflow type)))

namespace Measured

theorem cases {answer : Except Failure α} (h : Measured answer) :
    (∃ a, answer = .ok a) ∨ (∃ type, answer = .error (.type (.variableSize type))) ∨
      ∃ type, answer = .error (.type (.sizeOverflow type)) := by
  cases h with
  | known a => exact Or.inl ⟨a, rfl⟩
  | varies type => exact Or.inr (Or.inl ⟨type, rfl⟩)
  | overflows type => exact Or.inr (Or.inr ⟨type, rfl⟩)

/-- Where a part varies or is too large, so is the whole. -/
theorem stop {failure : Failure} (h : Measured (.error failure : Except Failure α)) :
    Measured (.error failure : Except Failure β) := by
  cases h with
  | varies type => exact .varies type
  | overflows type => exact .overflows type

theorem bind {answer : Except Failure α} {f : α → Except Failure β} (ha : Measured answer)
    (hf : ∀ a, answer = .ok a → Measured (f a)) : Measured (answer >>= f) := by
  cases answer with
  | ok a => exact hf a rfl
  | error failure => exact ha.stop

theorem orFail (type : TypeId) (value : Option α) :
    Measured (orFail (.type (.sizeOverflow type)) value) := by
  cases value with
  | some a => exact .known a
  | none => exact .overflows type

/-- Only what is incomplete is blamed on another type. -/
theorem blame {answer : Except Failure α} (h : Measured answer) (whole : TypeId) :
    Measured (answer.mapError (·.blame whole)) := by
  cases h with
  | known a => exact .known a
  | varies type => exact .varies type
  | overflows type => exact .overflows type

theorem foldlM {f : β → α → Except Failure β} {as : List α} (h : ∀ b, ∀ a ∈ as, Measured (f b a))
    (b : β) : Measured (as.foldlM f b) := by
  induction as generalizing b with
  | nil => exact .known b
  | cons a as ih =>
      rw [List.foldlM_cons]
      exact (h b a List.mem_cons_self).bind fun next _ =>
        ih (fun b other hm => h b other (List.mem_cons_of_mem a hm)) next

end Measured

theorem forall_of_foldlM_eq_ok {ε : Type} {f : β → α → Except ε β} {P : α → Prop} {as : List α}
    (h : ∀ b, ∀ a ∈ as, ∀ b', f b a = .ok b' → P a) {b b' : β} (hf : as.foldlM f b = .ok b') :
    ∀ a ∈ as, P a := by
  induction as generalizing b with
  | nil => exact fun a hm => absurd hm List.not_mem_nil
  | cons a as ih =>
      rw [List.foldlM_cons] at hf
      obtain ⟨next, ha, hf⟩ := bind_eq_ok.mp hf
      refine List.forall_mem_cons.mpr ⟨h b a List.mem_cons_self next ha, ?_⟩
      exact ih (fun b other hm => h b other (List.mem_cons_of_mem a hm)) hf

theorem exists_foldlM_eq_ok {ε : Type} {f : β → α → Except ε β} {as : List α}
    (h : ∀ b, ∀ a ∈ as, ∃ b', f b a = .ok b') (b : β) : ∃ b', as.foldlM f b = .ok b' := by
  induction as generalizing b with
  | nil => exact ⟨b, rfl⟩
  | cons a as ih =>
      obtain ⟨next, ha⟩ := h b a List.mem_cons_self
      obtain ⟨b', hf⟩ := ih (fun b other hm => h b other (List.mem_cons_of_mem a hm)) next
      exact ⟨b', bind_eq_ok.mpr ⟨next, ha, hf⟩⟩

theorem exists_of_foldlM_eq_error {ε : Type} {f : β → α → Except ε β} {as : List α} {b : β} {e : ε}
    (h : as.foldlM f b = .error e) : ∃ mid, ∃ a ∈ as, f mid a = .error e := by
  induction as generalizing b with
  | nil => cases h
  | cons a as ih =>
      rw [List.foldlM_cons] at h
      rcases bind_eq_error.mp h with ha | ⟨next, _, h⟩
      · exact ⟨b, a, List.mem_cons_self, ha⟩
      · obtain ⟨mid, other, hm, ho⟩ := ih h
        exact ⟨mid, other, List.mem_cons_of_mem a hm, ho⟩

namespace Builtin

variable {builtin : Builtin} (target : Target)

theorem isSome_size? : (builtin.size? target).isSome = builtin.isComplete := by
  cases builtin <;> rfl

theorem isSome_align? : (builtin.align? target).isSome = builtin.isComplete := by
  cases builtin <;> rfl

end Builtin

namespace Store

variable {store old new : Store} {type : TypeId}

/-! ### What enums are stored as -/

/-- A type that an enum may be stored as: a builtin type with a size, however qualified. -/
def Stores (store : Store) (base : TypeId) : Prop :=
  ∃ node builtin, store.node? base = some node ∧ node.shape.builtin? = some builtin ∧
    builtin.isComplete = true

/-- Every enum is stored as a builtin type with a size. -/
def StoresEnums (store : Store) : Prop :=
  ∀ type body, (type, .ofEnum body) ∈ store.definitions → store.Stores body.base

theorem Stores.mono {base : TypeId} (h : old.Stores base) (hext : old.Extends new) :
    new.Stores base := by
  obtain ⟨node, builtin, hn, hb⟩ := h
  exact ⟨node, builtin, hext.node? hn, hb⟩

theorem builtin?_of_isInteger {τ π ν : Type} {shape : Shape τ π ν}
    (h : (!shape.kind.isInteger || shape.kind.isNamed) = false) :
    ∃ builtin, shape.builtin? = some builtin ∧ builtin.isComplete = true := by
  cases shape with
  | builtin type => cases type <;> first | exact ⟨_, rfl, rfl⟩ | cases h
  | classType name isStruct => cases isStruct <;> cases h
  | _ => cases h

/-- From a well-formed store whose enums are stored as they should be, a store grew into another
such store. -/
def KeepsEnums (old new : Store) : Prop :=
  old.WellFormed → old.StoresEnums → old.Extends new ∧ new.WellFormed ∧ new.StoresEnums

instance : Std.Refl KeepsEnums := ⟨fun store hw hs => ⟨.refl store, hw, hs⟩⟩

instance : Trans KeepsEnums KeepsEnums KeepsEnums where
  trans hab hbc := by
    intro hw hs
    obtain ⟨hext, hw', hs'⟩ := hab hw hs
    obtain ⟨hext', hw'', hs''⟩ := hbc hw' hs'
    exact ⟨hext.trans hext', hw'', hs''⟩

/-- Only the enums that are new have to be looked at. -/
theorem Onward.keepsEnums (h : old.Onward new)
    (hnew : ∀ type body, (type, .ofEnum body) ∈ new.definitions →
      (type, .ofEnum body) ∈ old.definitions ∨ old.Stores body.base) : old.KeepsEnums new := by
  intro hw hs
  obtain ⟨hext, hw'⟩ := h hw
  refine ⟨hext, hw', fun type body hm => ?_⟩
  rcases hnew type body hm with hold | hbase
  · exact (hs type body hold).mono hext
  · exact hbase.mono hext

end Store

namespace Build

open Store

theorem keepsEnums_completeClass (draft : ClassDraft) :
    Keeps KeepsEnums (completeClass draft) := by
  intro store
  exact (keeps_completeClass draft store).keepsEnums fun type body hm =>
    Or.inl (ofEnum_of_completeClass hm)

/-- An enum is completed over a builtin integer or not at all. -/
theorem keepsEnums_completeEnum (draft : EnumDraft) (base : TypeId) :
    Keeps KeepsEnums (completeEnum draft base) := by
  intro store
  refine (keeps_completeEnum draft base store).keepsEnums fun type body hm => ?_
  refine (ofEnum_of_completeEnum hm).imp id ?_
  rintro ⟨kind, hk, hinteger⟩
  obtain ⟨node, hn, rfl⟩ := kind_eq_ok.mp hk
  obtain ⟨builtin, hb, hc⟩ := builtin?_of_isInteger hinteger
  exact ⟨node, builtin, hn, hb, hc⟩

end Build

theorem Request.keepsEnums_effect {request : Request} (hr : request.Countable) (store : Store) :
    store.KeepsEnums (request.effect store) := by
  have honward := request.onward_effect hr store
  cases request with
  | completeClass draft => exact Build.keepsEnums_completeClass draft store
  | completeEnum draft base => exact Build.keepsEnums_completeEnum draft base store
  | completeAll bodies =>
      exact Build.keeps_bodies Build.keepsEnums_completeClass Build.keepsEnums_completeEnum bodies
        store
  | retarget target => exact honward.keepsEnums fun _ _ hm => Or.inl hm
  | _ =>
      intro hw
      refine honward.keepsEnums (fun type body hm => Or.inl ?_) hw
      rwa [(safe_effect hr trivial store hw).definitions] at hm

namespace Store

variable {store old new : Store} {type : TypeId}

theorem Reachable.storesEnums (h : store.Reachable) : store.StoresEnums := by
  obtain ⟨target, hruns⟩ := h
  have hkeeps : (Store.new target).KeepsEnums store := by
    induction hruns with
    | refl => exact Std.Refl.refl _
    | tail _ hstep ih =>
        obtain ⟨request, hr, rfl⟩ := hstep
        exact Trans.trans ih (request.keepsEnums_effect hr _)
  refine (hkeeps (wellFormed_new target) fun type body hm => ?_).2.2
  cases hm

/-! ### Classes and enums -/

theorem kind_of_view {seen : View type} (hv : store.view type = .ok seen) :
    store.kind type = .ok seen.kind := by
  obtain ⟨wanted, own, ⟨shape, hn, hs⟩, hsee⟩ := view_eq_ok.mp hv
  exact kind_eq_ok.mpr ⟨_, hn, (spelling_eq_ok.mp hs).kind_eq.trans hsee.kind_eq⟩

theorem found_iff {owner : Except Failure TypeId} {find : TypeId → Option β} {failure : Failure} :
    (do return (find (← owner)).isSome) = .ok true ↔
      ∃ body, (do orFail failure (find (← owner))) = .ok body := by
  simp only [bind_eq_ok, pure_eq_ok, orFail_eq_ok, Option.isSome_iff_exists]
  constructor
  · rintro ⟨plain, hp, body, hb⟩
    exact ⟨body, plain, hp, hb⟩
  · rintro ⟨body, plain, hp, hb⟩
    exact ⟨plain, hp, body, hb⟩

theorem complete_class {name : PathId} {isStruct : Bool}
    (hv : store.view type = .ok (.classType name isStruct)) :
    store.isComplete type = .ok true ↔ ∃ body, store.classBody type = .ok body := by
  have howner : store.classOwner type = store.unqualified type := by
    rw [Store.classOwner, kind_of_view hv]
    cases isStruct <;> rfl
  have hself : store.isComplete type =
      (do return (store.classBody? (← store.unqualified type)).isSome) := by
    rw [Store.isComplete, hv]
    rfl
  rw [hself, Store.classBody, howner]
  exact found_iff

theorem complete_enum {name : PathId}
    (hv : store.view type = .ok (.enumType name)) :
    store.isComplete type = .ok true ↔ ∃ body, store.enumBody type = .ok body := by
  have howner : store.enumOwner type = store.unqualified type := by
    rw [Store.enumOwner, kind_of_view hv]
    rfl
  have hself : store.isComplete type =
      (do return (store.enumBody? (← store.unqualified type)).isSome) := by
    rw [Store.isComplete, hv]
    rfl
  rw [hself, Store.enumBody, howner]
  exact found_iff

theorem StoresEnums.storage (h : store.StoresEnums) {body : EnumBody}
    (hb : store.enumBody type = .ok body) :
    ∃ builtin, store.enumStorage type = .ok builtin ∧ builtin.isComplete = true := by
  obtain ⟨owner, _, hd⟩ := enumBody_eq_ok.mp hb
  obtain ⟨node, builtin, hn, hbuiltin, hc⟩ := h owner body (mem_of_definition? hd)
  exact ⟨builtin, enumStorage_eq_ok.mpr ⟨body, hb, builtinOf?_eq_ok.mpr ⟨node, hn, hbuiltin⟩⟩, hc⟩

/-! ### Alignments and sizes -/

theorem holds_of_view {seen : View type} (hv : store.view type = .ok seen) : store.Holds type := by
  obtain ⟨wanted, own, ⟨shape, hn, _⟩, _⟩ := view_eq_ok.mp hv
  exact ⟨_, hn⟩

theorem exists_pointerSize (h : store.Holds type) : ∃ size, store.pointerSize type = .ok size := by
  obtain ⟨node, hn⟩ := h
  exact ⟨_, bind_eq_ok.mpr ⟨node.qual, qual_eq_ok.mpr ⟨node, hn, rfl⟩, rfl⟩⟩

/-- The complete types are those with an alignment. -/
theorem StoresEnums.aligned_iff (h : store.StoresEnums) :
    (∃ align, store.align type = .ok align) ↔ store.isComplete type = .ok true := by
  induction hi : type.index using Nat.strongRecOn generalizing type with
  | _ i ih =>
      subst hi
      have hpart (part : Below type) : (∃ align, store.align part.type = .ok align) ↔
          store.isComplete part.type = .ok true := ih part.type.index part.older rfl
      cases hv : store.view type with
      | error failure => simp [Store.align, Store.isComplete, hv, bind, Except.bind]
      | ok seen =>
          cases seen with
          | classType name isStruct =>
              rw [complete_class hv, Store.align, hv, ok_bind]
              constructor
              · rintro ⟨align, ha⟩
                obtain ⟨body, hb, _⟩ := bind_eq_ok.mp ha
                exact ⟨body, hb⟩
              · rintro ⟨body, hb⟩
                exact ⟨body.align, bind_eq_ok.mpr ⟨body, hb, rfl⟩⟩
          | enumType name =>
              rw [complete_enum hv, Store.align, hv, ok_bind]
              constructor
              · rintro ⟨align, ha⟩
                obtain ⟨builtin, he, _⟩ := bind_eq_ok.mp ha
                obtain ⟨body, hb, _⟩ := enumStorage_eq_ok.mp he
                exact ⟨body, hb⟩
              · rintro ⟨body, hb⟩
                obtain ⟨builtin, he, hc⟩ := h.storage hb
                obtain ⟨align, ha⟩ := Option.isSome_iff_exists.mp
                  ((Builtin.isSome_align? store.target).trans hc)
                exact ⟨align, bind_eq_ok.mpr ⟨builtin, he, orFail_eq_ok.mpr ha⟩⟩
          | tuple parts =>
              rw [isComplete_tuple hv, allM_eq_ok_true, Store.align, hv, ok_bind]
              constructor
              · rintro ⟨align, ha⟩
                refine forall_of_foldlM_eq_ok (fun most part _ most' hm => ?_) ha
                obtain ⟨align, ha, _⟩ := bind_eq_ok.mp hm
                exact (hpart part).mp ⟨align, mapError_eq_ok.mp ha⟩
              · intro hall
                refine exists_foldlM_eq_ok (fun most part hm => ?_) 1
                obtain ⟨align, ha⟩ := (hpart part).mpr (hall part hm)
                exact ⟨_, bind_eq_ok.mpr ⟨align, mapError_eq_ok.mpr ha, rfl⟩⟩
          | builtin builtin =>
              rw [Store.isComplete, Store.align, hv, ok_bind, ok_bind, pure_eq_ok]
              rw [← Builtin.isSome_align? store.target, Option.isSome_iff_exists]
              exact exists_congr fun align => orFail_eq_ok
          | array base extent =>
              rw [Store.isComplete, Store.align, hv, ok_bind, ok_bind]
              cases he : extent.isComplete with
              | true => simpa [he] using hpart base
              | false => simp [he]
          | bitfield base bits offset =>
              rw [Store.isComplete, Store.align, hv]
              exact hpart base
          | pointer base | leftRef base | rightRef base =>
              rw [Store.isComplete, Store.align, hv, ok_bind, ok_bind]
              obtain ⟨size, hs⟩ := exists_pointerSize ((holds_of_view hv).below base)
              exact ⟨fun _ => rfl, fun _ => ⟨_, bind_eq_ok.mpr ⟨size, hs, rfl⟩⟩⟩
          | memberPointer owner base =>
              rw [Store.isComplete, Store.align, hv]
              exact ⟨fun _ => rfl, fun _ => ⟨_, rfl⟩⟩
          | function ret params conv | memberFunction owner ret params conv =>
              rw [Store.isComplete, Store.align, hv]
              exact ⟨by rintro ⟨_, ⟨⟩⟩, by rintro ⟨⟩⟩

theorem complete_of_size {size : Count} (hs : store.size type = .ok size) :
    store.isComplete type = .ok true := by
  induction hi : type.index using Nat.strongRecOn generalizing type size with
  | _ i ih =>
      subst hi
      have hpart {part : Below type} {size : Count} (hs : store.size part.type = .ok size) :
          store.isComplete part.type = .ok true := ih part.type.index part.older hs rfl
      rw [Store.size] at hs
      obtain ⟨seen, hv, hs⟩ := bind_eq_ok.mp hs
      cases seen with
      | builtin builtin =>
          have hsome := Option.isSome_of_eq_some (orFail_eq_ok.mp hs)
          rw [Store.isComplete, hv, ok_bind, pure_eq_ok, ← hsome, Builtin.isSome_size?]
      | array base extent =>
          cases extent with
          | fixed count =>
              obtain ⟨size, hbase, _⟩ := bind_eq_ok.mp hs
              rw [Store.isComplete, hv]
              exact hpart hbase
          | _ => cases hs
      | bitfield base bits offset =>
          obtain ⟨unit, hbase, _⟩ := bind_eq_ok.mp hs
          rw [Store.isComplete, hv]
          exact hpart hbase
      | tuple parts =>
          obtain ⟨total, hf, _⟩ := bind_eq_ok.mp hs
          rw [isComplete_tuple hv, allM_eq_ok_true]
          refine forall_of_foldlM_eq_ok (fun total part _ total' hm => ?_) hf
          obtain ⟨size, hsize, _⟩ := bind_eq_ok.mp hm
          exact hpart (mapError_eq_ok.mp hsize)
      | classType name isStruct =>
          obtain ⟨body, hb, _⟩ := bind_eq_ok.mp hs
          exact (complete_class hv).mpr ⟨body, hb⟩
      | enumType name =>
          obtain ⟨builtin, he, _⟩ := bind_eq_ok.mp hs
          obtain ⟨body, hb, _⟩ := enumStorage_eq_ok.mp he
          exact (complete_enum hv).mpr ⟨body, hb⟩
      | function ret params conv | memberFunction owner ret params conv => cases hs
      | _ =>
          rw [Store.isComplete, hv]
          rfl

/-- A complete type has a size, unless that varies or is too large. -/
theorem StoresEnums.measured (h : store.StoresEnums) (hc : store.isComplete type = .ok true) :
    Measured (store.size type) := by
  induction hi : type.index using Nat.strongRecOn generalizing type with
  | _ i ih =>
      subst hi
      have hpart {part : Below type} (hc : store.isComplete part.type = .ok true) :
          Measured (store.size part.type) := ih part.type.index part.older hc rfl
      have hself := hc
      rw [Store.isComplete] at hself
      obtain ⟨seen, hv, hself⟩ := bind_eq_ok.mp hself
      rw [Store.size, hv, ok_bind]
      cases seen with
      | builtin builtin =>
          obtain ⟨size, hs⟩ := Option.isSome_iff_exists.mp
            ((Builtin.isSome_size? store.target).trans (pure_eq_ok.mp hself))
          dsimp only
          rw [hs]
          exact .known size
      | array base extent =>
          cases extent with
          | fixed count => exact (hpart hself).bind fun size _ => .orFail type _
          | incomplete | unspecified => cases hself
          | _ => exact .varies type
      | bitfield base bits offset =>
          refine (hpart hself).bind fun unit _ => ?_
          dsimp only
          split
          · exact .known _
          · exact .orFail type _
      | pointer base | leftRef base | rightRef base =>
          obtain ⟨size, hs⟩ := exists_pointerSize ((holds_of_view hv).below base)
          dsimp only
          rw [hs]
          exact .known size
      | memberPointer owner base => exact .known _
      | tuple parts =>
          have hall := allM_eq_ok_true.mp hself
          refine (Measured.foldlM (fun total part hm => ?_) 0).bind fun total _ => .orFail type _
          exact ((hpart (hall part hm)).blame type).bind fun size _ => .orFail type _
      | classType name isStruct =>
          obtain ⟨body, hb⟩ := (complete_class hv).mp hc
          dsimp only
          rw [hb]
          exact .known body.size
      | enumType name =>
          obtain ⟨body, hb⟩ := (complete_enum hv).mp hc
          obtain ⟨builtin, he, hsized⟩ := h.storage hb
          obtain ⟨size, hs⟩ := Option.isSome_iff_exists.mp
            ((Builtin.isSome_size? store.target).trans hsized)
          dsimp only
          rw [he, ok_bind, hs]
          exact .known size
      | function ret params conv | memberFunction owner ret params conv => cases hself

/-- The complete types, by the notes or without them, are those with an alignment and the only ones
with a size, and the size of a complete type is known, varies, or does not fit in 64 bits. -/
theorem Reachable.complete_iff_aligned (h : store.Reachable) (type : TypeId) :
    ((∃ align, store.align type = .ok align) ↔
      outcome (Build.isComplete type) store = .ok true) ∧
    (∀ size, store.size type = .ok size → outcome (Build.isComplete type) store = .ok true) ∧
    (outcome (Build.isComplete type) store = .ok true →
      (∃ size, store.size type = .ok size) ∨
      (∃ part, store.size type = .error (.type (.variableSize part))) ∨
      ∃ part, store.size type = .error (.type (.sizeOverflow part))) := by
  rw [h.truthful.outcome_isComplete]
  exact ⟨h.storesEnums.aligned_iff, fun size hs => complete_of_size hs,
    fun hc => (h.storesEnums.measured hc).cases⟩

/-- Of four arrays, one has a size, one is too large to have one, and the size of one varies. These
are complete and aligned. The one whose extent is still open is neither. -/
theorem Reachable.complete_iff_aligned_array :
    let large : TypeId := ⟨Builtin.all.length⟩
    let small : TypeId := ⟨Builtin.all.length + 1⟩
    let varying : TypeId := ⟨Builtin.all.length + 2⟩
    let unfinished : TypeId := ⟨Builtin.all.length + 3⟩
    let array (extent : Extent) : Request := .enter (.array (.builtin .nullPtr) extent)
    let store : Store := (array .incomplete).effect ((array (.variable ⟨3⟩)).effect
      ((array (.fixed 3)).effect ((array (.fixed 0x8000000000000000)).effect (Store.new .wide))))
    store.Reachable ∧
      (∀ type ∈ [large, small, varying], outcome (Build.isComplete type) store = .ok true ∧
        ∃ align, store.align type = .ok align) ∧
      store.size large = .error (.type (.sizeOverflow large)) ∧ store.size small = .ok 12 ∧
      store.size varying = .error (.type (.variableSize varying)) ∧
      outcome (Build.isComplete unfinished) store = .ok false ∧
      ¬∃ align, store.align unfinished = .ok align := by
  intro large small varying unfinished array store
  have hcount (extent : Extent) : (array extent).Countable := trivial
  have h : store.Reachable := ((((reachable_new .wide).effect (hcount _)).effect
    (hcount _)).effect (hcount _)).effect (hcount _)
  have hcomplete : ∀ type ∈ [large, small, varying],
      outcome (Build.isComplete type) store = .ok true := by decide +kernel
  have hopen : outcome (Build.isComplete unfinished) store = .ok false := by decide +kernel
  refine ⟨h, fun type hm => ⟨hcomplete type hm, ?_⟩, by decide +kernel, by decide +kernel,
    by decide +kernel, hopen, fun haligned => ?_⟩
  · exact (h.complete_iff_aligned type).1.mpr (hcomplete type hm)
  · have hc := (h.complete_iff_aligned unfinished).1.mp haligned
    rw [hopen] at hc
    cases hc

end Store

end TypeGraph

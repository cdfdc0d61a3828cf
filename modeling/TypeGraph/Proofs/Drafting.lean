import TypeGraph.Proofs.History

/-!
Drafts as they are filled in. Main statements: the enumerators of a draft are the first ones of each
name that it was given, in order (`EnumDraft.writeAll_new`), and in a store where filled drafts
only were completed every body lists what one of them did (`Store.Built.drafted`).
-/

namespace TypeGraph

/-! ### What is asked of a draft -/

/-- One more entry for the draft of a class. -/
inductive ClassCall where
  | base (base : BaseClass)
  | data (member : Member String)
  | function (member : Member String)

/-- One more entry for the draft of an enum, or its flavor. -/
inductive EnumCall where
  | flavor (flavor : Flavor)
  | value (name : String) (value : Int128)

namespace ClassCall

def base? : ClassCall → Option BaseClass
  | .base listed => some listed
  | _ => none

def data? : ClassCall → Option (Member String)
  | .data member => some member
  | _ => none

def function? : ClassCall → Option (Member String)
  | .function member => some member
  | _ => none

end ClassCall

namespace EnumCall

def flavor? : EnumCall → Option Flavor
  | .flavor chosen => some chosen
  | .value _ _ => none

def value? : EnumCall → Option (String × Int128)
  | .flavor _ => none
  | .value name number => some (name, number)

end EnumCall

namespace ClassDraft

def write (draft : ClassDraft) : ClassCall → ClassDraft
  | .base base => draft.addBase base
  | .data member => draft.addData member
  | .function member => draft.addFunction member

def writeAll (draft : ClassDraft) (calls : List ClassCall) : ClassDraft := calls.foldl write draft

/-- A draft lists the bases, data members and function members that it was given, in order. -/
theorem writeAll_eq (draft : ClassDraft) (calls : List ClassCall) :
    draft.writeAll calls =
      { draft with
        bases := draft.bases ++ calls.filterMap ClassCall.base?
        data := draft.data ++ calls.filterMap ClassCall.data?
        functions := draft.functions ++ calls.filterMap ClassCall.function? } := by
  induction calls generalizing draft with
  | nil => simp [writeAll]
  | cons call calls ih =>
      rw [writeAll, List.foldl_cons, ← writeAll, ih]
      cases call <;> simp [write, addBase, addData, addFunction, List.filterMap_cons,
        ClassCall.base?, ClassCall.data?, ClassCall.function?]

end ClassDraft

/-! ### The first entry of each name -/

/-- The entries whose names were not met before. -/
def firsts {α : Type} : List (String × α) → List (String × α)
  | [] => []
  | entry :: rest => entry :: (firsts rest).filter (·.1 != entry.1)

section Firsts

variable {α : Type}

theorem lookup_filter_ne (entries : List (String × α)) (first name : String) :
    (entries.filter (·.1 != first)).lookup name =
      if name = first then none else entries.lookup name := by
  induction entries with
  | nil => simp
  | cons entry entries ih =>
      obtain ⟨key, value⟩ := entry
      by_cases hfirst : key = first
      · rw [List.filter_cons_of_neg (by simpa using hfirst), ih, List.lookup_cons]
        by_cases hname : name = first
        · simp [hname]
        · rw [if_neg hname, if_neg hname, hfirst, beq_false_of_ne hname]
      · rw [List.filter_cons_of_pos (by simpa using hfirst), List.lookup_cons, List.lookup_cons, ih]
        by_cases hname : name = key
        · subst hname
          simp [hfirst]
        · simp [beq_false_of_ne hname]

/-- Leaving out what comes again under a name changes nothing for one who looks names up. -/
theorem lookup_firsts (entries : List (String × α)) (name : String) :
    (firsts entries).lookup name = entries.lookup name := by
  induction entries with
  | nil => rfl
  | cons entry entries ih =>
      obtain ⟨key, value⟩ := entry
      rw [firsts, List.lookup_cons, List.lookup_cons, lookup_filter_ne, ih]
      by_cases hname : name = key
      · simp [hname]
      · simp [hname]

theorem nodup_firsts (entries : List (String × α)) : ((firsts entries).map Prod.fst).Nodup := by
  induction entries with
  | nil => exact .nil
  | cons entry entries ih =>
      rw [firsts, List.map_cons, List.nodup_cons]
      constructor
      · intro hm
        obtain ⟨other, hother, heq⟩ := List.mem_map.mp hm
        have hne := (List.mem_filter.mp hother).2
        simp [heq] at hne
      · exact ih.sublist (List.filter_sublist.map Prod.fst)

theorem firsts_sublist (entries : List (String × α)) : (firsts entries).Sublist entries := by
  induction entries with
  | nil => exact .slnil
  | cons entry entries ih => exact (List.filter_sublist.trans ih).cons_cons entry

/-- An entry that comes last is among the first ones exactly if its name is new. -/
theorem firsts_concat (entries : List (String × α)) (last : String × α) :
    firsts (entries ++ [last]) =
      if (entries.lookup last.1).isSome then firsts entries else firsts entries ++ [last] := by
  induction entries with
  | nil => rfl
  | cons entry entries ih =>
      obtain ⟨key, value⟩ := entry
      rw [List.cons_append, firsts, ih, List.lookup_cons, firsts]
      by_cases hkey : last.1 = key
      · subst hkey
        cases hl : (entries.lookup last.1).isSome with
        | true => simp
        | false => simp [List.filter_append]
      · cases hl : (entries.lookup last.1).isSome with
        | true => simp [beq_false_of_ne hkey, hl]
        | false => simp [beq_false_of_ne hkey, hl, List.filter_append, hkey]

end Firsts

namespace EnumDraft

/-- A refused enumerator changes nothing. -/
def write (draft : EnumDraft) : EnumCall → EnumDraft
  | .flavor flavor => { draft with flavor }
  | .value name value =>
      match draft.add name value with
      | .ok draft => draft
      | .error _ => draft

def writeAll (draft : EnumDraft) (calls : List EnumCall) : EnumDraft := calls.foldl write draft

/-- The flavor that was chosen last, if one was. -/
def chosen (flavor : Flavor) (calls : List EnumCall) : Flavor :=
  (calls.filterMap EnumCall.flavor?).getLastD flavor

/-- The enumerators that were asked for, refused ones among them. -/
def asked (calls : List EnumCall) : List (String × Int128) := calls.filterMap EnumCall.value?

theorem write_value (draft : EnumDraft) (name : String) (value : Int128) :
    draft.write (.value name value) =
      if (draft.value? name).isSome then draft
      else { draft with values := draft.values ++ [(name, value)] } := by
  rw [write, add]
  by_cases h : (draft.value? name).isSome
  · rw [if_pos h, if_pos h]
  · rw [if_neg h, if_neg h]

theorem writeAll_concat (draft : EnumDraft) (calls : List EnumCall) (call : EnumCall) :
    draft.writeAll (calls ++ [call]) = (draft.writeAll calls).write call :=
  List.foldl_concat _ _ _ _

/-- A new draft lists the first enumerator of each name that it was given, in order, and has the
last flavor. -/
theorem writeAll_new (type : TypeId) (calls : List EnumCall) :
    (new type).writeAll calls = ⟨type, chosen .plain calls, firsts (asked calls)⟩ := by
  induction calls using List.reverseRecOn with
  | nil => rfl
  | append_singleton calls call ih =>
      rw [writeAll_concat, ih]
      cases call with
      | flavor flavor =>
          simp [write, chosen, asked, List.filterMap_cons, EnumCall.flavor?, EnumCall.value?]
      | value name value =>
          have hasked : asked (calls ++ [.value name value]) = asked calls ++ [(name, value)] := by
            simp [asked, EnumCall.value?]
          have hchosen : chosen .plain (calls ++ [.value name value]) = chosen .plain calls := by
            simp [chosen, EnumCall.flavor?]
          rw [write_value, EnumDraft.value?, lookup_firsts, hasked, hchosen, firsts_concat]
          cases ((asked calls).lookup name).isSome <;> rfl

/-- A draft knows the names that were asked for, also those that were refused again. -/
theorem value?_writeAll_new (type : TypeId) (calls : List EnumCall) (name : String) :
    ((new type).writeAll calls).value? name = (asked calls).lookup name := by
  rw [writeAll_new, EnumDraft.value?, lookup_firsts]

/-- An enumerator is refused if one of that name was asked for before. -/
theorem add_writeAll_new (type : TypeId) (calls : List EnumCall) (name : String) (value : Int128) :
    ((new type).writeAll calls).add name value =
      if ((asked calls).lookup name).isSome then .error (.duplicateEnumValue type name)
      else .ok ((new type).writeAll (calls ++ [.value name value])) := by
  rw [writeAll_concat, write_value, add, value?_writeAll_new]
  split
  · rw [writeAll_new]
  · rfl

end EnumDraft

/-! ### Filled drafts -/

/-- The lists of a draft are counted in 64 bits. -/
structure ClassDraft.Filled (draft : ClassDraft) : Prop where
  bases : draft.bases.length < UInt64.size
  data : draft.data.length < UInt64.size
  functions : draft.functions.length < UInt64.size

/-- The enumerators of a draft differ and are counted in 64 bits. -/
structure EnumDraft.Filled (draft : EnumDraft) : Prop where
  nodup : (draft.values.map Prod.fst).Nodup
  values : draft.values.length < UInt64.size

def OpenBody.Filled : OpenBody → Prop
  | .ofClass draft => draft.Filled
  | .ofEnum draft _ => draft.Filled

/-- A draft of a class is filled by any calls that can be counted. -/
theorem ClassDraft.filled_writeAll (type : TypeId) {calls : List ClassCall}
    (h : calls.length < UInt64.size) : ((new type).writeAll calls).Filled := by
  have hcount {α : Type} (part : ClassCall → Option α) :
      ([] ++ calls.filterMap part).length < UInt64.size :=
    Nat.lt_of_le_of_lt (List.length_filterMap_le part calls) h
  rw [writeAll_eq]
  exact ⟨hcount _, hcount _, hcount _⟩

/-- A draft of an enum is filled by any calls that can be counted. -/
theorem EnumDraft.filled_writeAll (type : TypeId) {calls : List EnumCall}
    (h : calls.length < UInt64.size) : ((new type).writeAll calls).Filled := by
  rw [writeAll_new]
  refine ⟨nodup_firsts _, Nat.lt_of_le_of_lt ?_ h⟩
  exact Nat.le_trans (firsts_sublist _).length_le (List.length_filterMap_le _ _)

/-- A draft of the store is filled. -/
theorem OpenBody.OpenIn.filled {store : Store} {body : OpenBody} (h : body.OpenIn store) :
    body.Filled := by
  cases body with
  | ofClass draft => exact ⟨h.bases, h.data, h.functions⟩
  | ofEnum draft base => exact ⟨h.nodup, h.values⟩

/-! ### Runs on filled drafts -/

/-- The drafts that a request completes were filled. -/
def Request.Filled : Request → Prop
  | .completeClass draft => draft.Filled
  | .completeEnum draft _ => draft.Filled
  | .completeAll bodies => ∀ body ∈ bodies, body.Filled
  | _ => True

namespace Store

variable {store old new : Store}

/-- A body that lists what a filled draft did. -/
inductive Drafted (store : Store) : TypeId × Definition → Prop where
  | ofClass {draft : ClassDraft} {body : ClassBody} (filled : draft.Filled)
      (completes : Completes store.names draft body) : Drafted store (draft.type, .ofClass body)
  | ofEnum {draft : EnumDraft} {base : TypeId} {body : EnumBody} (filled : draft.Filled)
      (completes : CompletesEnum store.names draft base body) :
      Drafted store (draft.type, .ofEnum body)

theorem Drafted.mono (h : old.names.Extends new.names) {entry : TypeId × Definition}
    (hd : old.Drafted entry) : new.Drafted entry := by
  cases hd with
  | ofClass filled completes => exact .ofClass filled (completes.mono h)
  | ofEnum filled completes => exact .ofEnum filled (completes.mono h)

/-- A body that can be fixed lists what a draft of the store did. -/
theorem Fixes.drafted {entry : TypeId × Definition} (h : store.Fixes entry) :
    store.Drafted entry := by
  cases h with
  | ofClass opened completes =>
      exact .ofClass ⟨opened.bases, opened.data, opened.functions⟩ completes
  | ofEnum opened completes => exact .ofEnum ⟨opened.nodup, opened.values⟩ completes

/-- All bodies are such that list what filled drafts did. -/
def AllDrafted (store : Store) : Prop := ∀ entry ∈ store.definitions, store.Drafted entry

/-- Bodies that list what filled drafts did go on to, and no others are added. -/
def StaysDrafted (old new : Store) : Prop := old.AllDrafted → new.AllDrafted

instance : Std.Refl StaysDrafted := ⟨fun _ => id⟩

instance : Trans StaysDrafted StaysDrafted StaysDrafted where
  trans hab hbc := hbc ∘ hab

theorem staysDrafted_of_definitions (h : old.names.Extends new.names)
    (hd : new.definitions = old.definitions) : old.StaysDrafted new :=
  fun hold entry hm => (hold entry (hd ▸ hm)).mono h

theorem staysDrafted_defining {names : Names} (h : store.names.Extends names) {type : TypeId}
    {definition : Definition}
    (hd : (store.defining names type definition).Drafted (type, definition)) :
    store.StaysDrafted (store.defining names type definition) := by
  intro hold entry hm
  rcases List.mem_append.mp hm with hm | hm
  · exact (hold entry hm).mono h
  · exact List.mem_singleton.mp hm ▸ hd

end Store

namespace Build

open Store

theorem staysDrafted_completeBody (body : OpenBody) (hf : body.Filled) :
    Keeps StaysDrafted (completeBody body) := by
  intro store
  cases body with
  | ofClass draft =>
      obtain ⟨names, hext, _, h | ⟨data, functions, size, align, _, hd, hfs, _, h⟩⟩ :=
        after_completeClass draft store
      · exact h ▸ staysDrafted_of_definitions hext rfl
      · exact h ▸ staysDrafted_defining hext (.ofClass hf ⟨rfl, hd, hfs⟩)
  | ofEnum draft base =>
      obtain ⟨names, hext, _, h | ⟨values, kind, _, hv, _, _, h⟩⟩ :=
        after_completeEnum draft base store
      · exact h ▸ staysDrafted_of_definitions hext rfl
      · exact h ▸ staysDrafted_defining hext (.ofEnum hf ⟨rfl, rfl, hv⟩)

end Build

/-- Every request on filled drafts keeps the bodies such. -/
theorem Request.staysDrafted_effect {request : Request} (hr : request.Countable)
    (hf : request.Filled) {store : Store} (hw : store.WellFormed) :
    store.StaysDrafted (request.effect store) := by
  cases request with
  | retarget target => exact Store.staysDrafted_of_definitions (.refl _) rfl
  | completeClass draft => exact Build.staysDrafted_completeBody (.ofClass draft) hf store
  | completeEnum draft base =>
      exact Build.staysDrafted_completeBody (.ofEnum draft base) hf store
  | completeAll bodies =>
      exact Build.keeps_each (fun body hm => Build.staysDrafted_completeBody body (hf body hm))
        store
  | _ =>
      have hg := safe_effect hr trivial store hw
      exact Store.staysDrafted_of_definitions hg.extends_.names hg.definitions

namespace Store

variable {store old new : Store}

/-- One request was made, on filled drafts. -/
def FilledStep (old new : Store) : Prop :=
  ∃ request : Request, request.Countable ∧ request.Filled ∧ request.effect old = new

/-- A store that such requests led to from a new one. -/
def Built (store : Store) : Prop :=
  ∃ target, Relation.ReflTransGen FilledStep (Store.new target) store

theorem built_new (target : Target) : (Store.new target).Built := ⟨target, .refl⟩

theorem Built.effect (h : store.Built) {request : Request} (hr : request.Countable)
    (hf : request.Filled) : (request.effect store).Built := by
  obtain ⟨target, hruns⟩ := h
  exact ⟨target, hruns.tail ⟨request, hr, hf, rfl⟩⟩

theorem Built.reachable (h : store.Built) : store.Reachable := by
  obtain ⟨target, hruns⟩ := h
  have hstep : FilledStep ≤ Step := fun _ _ ⟨request, hr, _, heq⟩ => ⟨request, hr, heq⟩
  exact ⟨target, Relation.ReflTransGen.mono hstep _ _ hruns⟩

/-- Every body of such a store lists what some filled draft did. -/
theorem Built.drafted (h : store.Built) : store.AllDrafted := by
  obtain ⟨target, hruns⟩ := h
  induction hruns with
  | refl => exact fun _ hm => absurd hm List.not_mem_nil
  | @tail mid new hmid hstep ih =>
      obtain ⟨request, hr, hf, rfl⟩ := hstep
      have hw : mid.WellFormed := (Built.reachable ⟨target, hmid⟩).wellFormed
      exact request.staysDrafted_effect hr hf hw ih

end Store

end TypeGraph

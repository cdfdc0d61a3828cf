import TypeGraph.Proofs.Wanted
import TypeGraph.Record.Tables

/-!
Requests that are refused but are never at fault. Main statement: a request over types, parameter
lists and paths that the store holds gives a type or is refused (`TypeRequest.faultless_run`).
-/

namespace TypeGraph

variable {α β : Type}

/-! ### Answers without a fault -/

/-- A question that fails, if at all, for another reason than a number that the store never gave
out. -/
def Faultless (answer : Except Failure α) : Prop := ∀ fault, answer ≠ .error (.fault fault)

namespace Faultless

theorem pure (a : α) : Faultless (pure a) := by
  intro fault h
  cases h

theorem of_ok {answer : Except Failure α} {a : α} (h : answer = .ok a) : Faultless answer :=
  h ▸ pure a

theorem refused (error : TypeError) : Faultless (.error (.type error) : Except Failure α) := by
  intro fault h
  cases h

theorem archive (error : ArchiveError) :
    Faultless (.error (.archive error) : Except Failure α) := by
  intro fault h
  cases h

theorem throw (error : TypeError) : Faultless (throw (.type error) : Except Failure α) :=
  refused error

/-- A failure of one part is the failure of the whole. -/
theorem stop {failure : Failure} (h : Faultless (.error failure : Except Failure α)) :
    Faultless (.error failure : Except Failure β) := by
  intro fault hfault
  cases hfault
  exact h fault rfl

theorem bind {answer : Except Failure α} {f : α → Except Failure β} (ha : Faultless answer)
    (hf : ∀ a, answer = .ok a → Faultless (f a)) : Faultless (answer >>= f) := by
  cases answer with
  | ok a => exact hf a rfl
  | error failure => exact ha.stop

theorem orFail (error : TypeError) (value : Option α) : Faultless (orFail (.type error) value) := by
  cases value with
  | some a => exact pure a
  | none => exact refused error

/-- Blaming another type makes no fault of a refusal. -/
theorem blame {answer : Except Failure α} (h : Faultless answer) (whole : TypeId) :
    Faultless (answer.mapError (·.blame whole)) := by
  cases answer with
  | ok a => exact pure a
  | error failure =>
      intro fault hfault
      cases failure with
      | type error => cases error <;> cases hfault
      | archive error => cases hfault
      | fault own => exact h own rfl

theorem foldlM {f : β → α → Except Failure β} {as : List α}
    (h : ∀ b, ∀ a ∈ as, Faultless (f b a)) (b : β) : Faultless (as.foldlM f b) := by
  induction as generalizing b with
  | nil => exact pure b
  | cons a as ih =>
      rw [List.foldlM_cons]
      exact (h b a List.mem_cons_self).bind fun next _ =>
        ih (fun b other hm => h b other (List.mem_cons_of_mem a hm)) next

theorem mapM {f : α → Except Failure β} {as : List α} (h : ∀ a ∈ as, Faultless (f a)) :
    Faultless (as.mapM f) := by
  induction as with
  | nil => exact pure []
  | cons a as ih =>
      rw [List.mapM_cons]
      exact (h a List.mem_cons_self).bind fun _ _ =>
        (ih fun other hm => h other (List.mem_cons_of_mem a hm)).bind fun _ _ => pure _

end Faultless

/-! ### Types that a store holds -/

namespace Store

variable {store old new : Store}

/-- The store gave out this number for a path. -/
def Knows (store : Store) (name : PathId) : Prop :=
  ∃ segments, store.names.segments name = .ok segments

theorem Knows.mono {name : PathId} (h : old.Knows name) (hext : old.names.Extends new.names) :
    new.Knows name := by
  obtain ⟨segments, hs⟩ := h
  exact ⟨segments, Names.segments_eq_ok.mpr (hext.paths.get? (Names.segments_eq_ok.mp hs))⟩

/-- The store gave out this number for a type. -/
def Holds (store : Store) (type : TypeId) : Prop := ∃ node, store.node? type = some node

theorem Holds.mono {type : TypeId} (h : old.Holds type) (hext : old.Extends new) :
    new.Holds type := by
  obtain ⟨node, hn⟩ := h
  exact ⟨node, hext.node? hn⟩

/-- A type that was held is later on what it was. -/
theorem Holds.node?_of_extends {type : TypeId} (h : old.Holds type) (hext : old.Extends new)
    {node : Node} (hn : new.node? type = some node) : old.node? type = some node := by
  obtain ⟨own, hold⟩ := h
  cases (hext.node? hold).symm.trans hn
  exact hold

namespace Holds

variable {type : TypeId}

theorem shape (h : store.Holds type) : Faultless (store.shape type) := by
  obtain ⟨node, hn⟩ := h
  exact .of_ok (shape_eq_ok.mpr ⟨node, hn, rfl⟩)

theorem node (h : store.Holds type) : Faultless (store.node type) := by
  obtain ⟨node, hn⟩ := h
  exact .of_ok (node_eq_ok.mpr hn)

theorem qual (h : store.Holds type) : Faultless (store.qual type) :=
  h.node.bind fun _ _ => .pure _

theorem kind (h : store.Holds type) : Faultless (store.kind type) :=
  h.shape.bind fun _ _ => .pure _

theorem unqualified (h : store.Holds type) : Faultless (store.unqualified type) :=
  h.shape.bind fun _ _ => .pure _

theorem classOwner (h : store.Holds type) : Faultless (store.classOwner type) := by
  refine h.kind.bind fun kind _ => ?_
  split
  · exact h.unqualified
  · exact .throw _

theorem enumOwner (h : store.Holds type) : Faultless (store.enumOwner type) := by
  refine h.kind.bind fun kind _ => ?_
  split
  · exact h.unqualified
  · exact .throw _

theorem classBody (h : store.Holds type) : Faultless (store.classBody type) :=
  h.classOwner.bind fun _ _ => .orFail _ _

theorem enumBody (h : store.Holds type) : Faultless (store.enumBody type) :=
  h.enumOwner.bind fun _ _ => .orFail _ _

theorem openClass (h : store.Holds type) : Faultless (store.openClass type) := by
  refine h.classOwner.bind fun owner _ => ?_
  cases (store.classBody? owner).isSome with
  | true => exact .throw _
  | false => exact .pure _

theorem openEnum (h : store.Holds type) : Faultless (store.openEnum type) := by
  refine h.enumOwner.bind fun owner _ => ?_
  cases (store.enumBody? owner).isSome with
  | true => exact .throw _
  | false => exact .pure _

end Holds

end Store

/-! ### Requests for types -/

namespace TypeRequest

/-- The store holds every type, parameter list and path that a request names. -/
def Given (store : Store) : TypeRequest → Prop
  | .array base _ | .bitfield base _ _ | .pointer base | .leftRef base | .rightRef base =>
      store.Holds base
  | .function ret set _ => store.Holds ret ∧ ∃ params, store.paramSet set = .ok params
  | .memberFunction owner ret set _ =>
      store.Holds owner ∧ store.Holds ret ∧ ∃ params, store.paramSet set = .ok params
  | .memberPointer owner base => store.Holds owner ∧ store.Holds base
  | .tuple parts => ∀ part ∈ parts, store.Holds part
  | .tupleOf set => ∃ params, store.paramSet set = .ok params
  | .classType name _ | .enumType name => store.Knows name

theorem faultless_wanted {request : TypeRequest} {store : Store} (h : request.Given store) :
    Faultless (request.wanted store) := by
  cases request with
  | array base extent | bitfield base bits offset | pointer base | leftRef base | rightRef base =>
      exact h.node.bind fun _ _ => .pure _
  | function ret set conv =>
      obtain ⟨hret, params, hset⟩ := h
      exact hret.node.bind fun _ _ => (Faultless.of_ok hset).bind fun _ _ => .pure _
  | memberFunction owner ret set conv =>
      obtain ⟨howner, hret, params, hset⟩ := h
      exact howner.classOwner.bind fun _ _ => hret.node.bind fun _ _ =>
        (Faultless.of_ok hset).bind fun _ _ => .pure _
  | memberPointer owner base =>
      exact h.1.classOwner.bind fun _ _ => h.2.node.bind fun _ _ => .pure _
  | tuple parts =>
      exact (Faultless.mapM fun part hm => (h part hm).node).bind fun _ _ => .pure _
  | tupleOf set =>
      obtain ⟨params, hset⟩ := h
      refine (Faultless.of_ok hset).bind fun params _ => ?_
      cases params.variadic with
      | true => exact .throw _
      | false => exact .pure _
  | classType name isStruct | enumType name => exact .pure _

/-- A request over types of the store gives a type of the store or is refused. -/
theorem faultless_run {request : TypeRequest} (hr : request.Countable) {store : Store}
    (hw : store.WellFormed) (h : request.Given store) : Faultless (outcome request.run store) := by
  have hwanted := faultless_wanted h
  rw [outcome, run_eq]
  cases hwant : request.wanted store with
  | error failure =>
      rw [hwant] at hwanted
      exact .stop hwanted
  | ok wanted =>
      obtain ⟨type, next, shape, hrun, _⟩ := Build.run_spelled hw (wanted_admits hr hw hwant)
      simp only [Build.answered, hrun]
      exact .pure type

end TypeRequest

/-! ### Bodies -/

/-- The store holds the bases and members of a draft. -/
structure ClassDraft.HeldBy (draft : ClassDraft) (store : Store) : Prop where
  bases : ∀ base ∈ draft.bases, store.Holds base.type
  data : ∀ member ∈ draft.data, store.Holds member.type
  functions : ∀ member ∈ draft.functions, store.Holds member.type

/-- The store holds the types that a body is made of. -/
def OpenBody.HeldBy (store : Store) : OpenBody → Prop
  | .ofClass draft => draft.HeldBy store
  | .ofEnum _ base => store.Holds base

theorem OpenBody.HeldBy.mono {old new : Store} (hext : old.Extends new) {body : OpenBody}
    (h : body.HeldBy old) : body.HeldBy new := by
  cases body with
  | ofClass draft =>
      exact ⟨fun base hm => (h.bases base hm).mono hext,
        fun member hm => (h.data member hm).mono hext,
        fun member hm => (h.functions member hm).mono hext⟩
  | ofEnum draft base => exact Store.Holds.mono h hext

end TypeGraph

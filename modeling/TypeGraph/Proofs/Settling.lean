import TypeGraph.Proofs.Noting

/-!
What is complete stays complete, so that it can be noted for good. Main statements: a later store
finds complete what an earlier one did (`Store.Extends.isComplete`), and a store that requests led
to answers from its notes as it would without them (`Store.Truthful.outcome_isComplete`,
`Store.Reachable.truthful`).
-/

namespace TypeGraph

variable {α β ε : Type}

/-! ### Completeness -/

theorem allM_eq_ok_true {f : α → Except ε Bool} {as : List α} :
    as.allM f = .ok true ↔ ∀ a ∈ as, f a = .ok true := by
  induction as with
  | nil => simp [List.allM]
  | cons a as ih =>
      rw [List.allM, bind_eq_ok, List.forall_mem_cons, ← ih]
      constructor
      · rintro ⟨holds, ha, has⟩
        cases holds with
        | true => exact ⟨ha, has⟩
        | false => cases has
      · rintro ⟨ha, has⟩
        exact ⟨true, ha, has⟩

namespace Store

variable {store old new : Store} {type : TypeId}

/-- What is seen of a type goes on to be seen. -/
theorem Extends.view (h : old.Extends new) {seen : View type} (hv : old.view type = .ok seen) :
    new.view type = .ok seen := by
  obtain ⟨wanted, own, hs, hsee⟩ := view_eq_ok.mp hv
  exact view_eq_ok.mpr ⟨wanted, own, h.spells hs, hsee⟩

theorem Extends.classBody? (h : old.Extends new) {body : ClassBody}
    (hb : old.classBody? type = some body) : new.classBody? type = some body :=
  classBody?_eq_some.mpr (h.definition? (classBody?_eq_some.mp hb))

theorem Extends.enumBody? (h : old.Extends new) {body : EnumBody}
    (hb : old.enumBody? type = some body) : new.enumBody? type = some body :=
  enumBody?_eq_some.mpr (h.definition? (enumBody?_eq_some.mp hb))

/-- What is complete stays complete: bodies are fixed for good. -/
theorem Extends.isComplete (h : old.Extends new) (hw : old.WellFormed)
    (hc : old.isComplete type = .ok true) : new.isComplete type = .ok true := by
  induction hi : type.index using Nat.strongRecOn generalizing type with
  | _ i ih =>
      subst hi
      have hpart (part : Below type) : old.isComplete part.type = .ok true →
          new.isComplete part.type = .ok true :=
        fun hp => ih part.type.index part.older hp rfl
      rw [Store.isComplete] at hc ⊢
      obtain ⟨seen, hv, hc⟩ := bind_eq_ok.mp hc
      refine bind_eq_ok.mpr ⟨seen, h.view hv, ?_⟩
      cases seen with
      | array base extent =>
          cases he : extent.isComplete with
          | true =>
              simp only [he, if_true] at hc ⊢
              exact hpart base hc
          | false => simp [he] at hc
      | bitfield base bits offset => exact hpart base hc
      | tuple parts =>
          exact allM_eq_ok_true.mpr fun part hm => hpart part (allM_eq_ok_true.mp hc part hm)
      | classType name isStruct =>
          obtain ⟨plain, hplain, hbody⟩ := bind_eq_ok.mp hc
          obtain ⟨body, hbody⟩ := Option.isSome_iff_exists.mp (pure_eq_ok.mp hbody)
          refine bind_eq_ok.mpr ⟨plain, h.unqualified hw hplain, ?_⟩
          rw [h.classBody? hbody]
          rfl
      | enumType name =>
          obtain ⟨plain, hplain, hbody⟩ := bind_eq_ok.mp hc
          obtain ⟨body, hbody⟩ := Option.isSome_iff_exists.mp (pure_eq_ok.mp hbody)
          refine bind_eq_ok.mpr ⟨plain, h.unqualified hw hplain, ?_⟩
          rw [h.enumBody? hbody]
          rfl
      | _ => exact hc

theorem isComplete_tuple {parts : Params (Below type)} (hv : store.view type = .ok (.tuple parts)) :
    store.isComplete type = parts.types.allM fun part => store.isComplete part.type := by
  rw [Store.isComplete, hv]
  rfl

/-- What is noted as complete is complete. -/
def Truthful (store : Store) : Prop := ∀ type ∈ store.settled, store.isComplete type = .ok true

end Store

namespace Build

open Store

variable {store : Store}

/-- A request answers a question about a store, whatever is truthfully noted there, and leaves notes
at most, which are truthful. -/
def Answers (m : Build α) (answer : Except Failure α) (store : Store) : Prop :=
  ∀ settled, (store.noting settled).Truthful → ∃ settled', (store.noting settled').Truthful ∧
    m (store.noting settled) =
      answered (store.noting settled') answer (.ok · (store.noting settled'))

namespace Answers

theorem pure (a : α) : Answers (pure a) (.ok a) store := fun settled hs => ⟨settled, hs, rfl⟩

theorem query {question : Store → Except Failure α}
    (h : ∀ settled, question (store.noting settled) = question store) :
    Answers (query question) (question store) store := by
  intro settled hs
  refine ⟨settled, hs, ?_⟩
  rw [run_query, h settled]
  cases question store <;> rfl

theorem bind {m : Build α} {f : α → Build β} {answer : Except Failure α}
    {next : α → Except Failure β} (hm : Answers m answer store)
    (hf : ∀ a, answer = .ok a → Answers (f a) (next a) store) :
    Answers (m >>= f) (answer >>= next) store := by
  intro settled hs
  obtain ⟨settled', hs', hrun⟩ := hm settled hs
  rw [run_bind, hrun]
  cases answer with
  | ok a => exact hf a rfl settled' hs'
  | error failure => exact ⟨settled', hs', rfl⟩

theorem allM {f : α → Build Bool} {g : α → Except Failure Bool} {as : List α}
    (h : ∀ a ∈ as, Answers (f a) (g a) store) : Answers (as.allM f) (as.allM g) store := by
  induction as with
  | nil => exact pure true
  | cons a as ih =>
      rw [List.allM, List.allM]
      refine (h a List.mem_cons_self).bind fun holds _ => ?_
      cases holds with
      | true => exact ih fun b hb => h b (List.mem_cons_of_mem a hb)
      | false => exact pure false

/-- What is found complete may be noted. -/
theorem settling {m : Build Bool} {answer : Except Failure Bool} {type : TypeId}
    (hm : Answers m answer store) (hc : answer = .ok true → store.isComplete type = .ok true) :
    Answers (do
      let complete ← m
      if complete then settle type
      return complete) answer store := by
  intro settled hs
  obtain ⟨settled', hs', hrun⟩ := hm settled hs
  rw [run_bind, hrun]
  cases answer with
  | error failure => exact ⟨settled', hs', rfl⟩
  | ok complete =>
      cases complete with
      | false => exact ⟨settled', hs', rfl⟩
      | true =>
          refine ⟨type :: settled', fun other hm => ?_, rfl⟩
          rw [isComplete_noting]
          rcases List.mem_cons.mp hm with rfl | hold
          · exact hc rfl
          · exact (isComplete_noting store settled' other).symm.trans (hs' other hold)

theorem outcome_eq {m : Build α} {answer : Except Failure α} (h : Answers m answer store)
    {settled : List TypeId} (hs : (store.noting settled).Truthful) :
    outcome m (store.noting settled) = answer := by
  obtain ⟨settled', _, hrun⟩ := h settled hs
  rw [outcome, hrun]
  cases answer <;> rfl

end Answers

/-- The question for completeness that goes by the notes has the answer of the one that does not. -/
theorem answers_isComplete (store : Store) (type : TypeId) :
    Answers (Build.isComplete type) (store.isComplete type) store := by
  induction hi : type.index using Nat.strongRecOn generalizing type with
  | _ i ih =>
      subst hi
      have hpart (part : Below type) :
          Answers (Build.isComplete part.type) (store.isComplete part.type) store :=
        ih part.type.index part.older part.type rfl
      intro settled hs
      rw [Build.isComplete, run_bind_of_ok (run_get _)]
      split
      next hm =>
          refine ⟨settled, hs, ?_⟩
          rw [← isComplete_noting store settled type, hs type hm]
          rfl
      next =>
          -- Nothing is noted about the type itself, so both look at its parts.
          rw [Store.isComplete]
          refine Answers.bind (.query fun _ => rfl) (fun seen hv => ?_) settled hs
          cases seen with
          | array base extent =>
              dsimp only
              split
              · exact hpart base
              · exact .pure false
          | bitfield base bits offset => exact hpart base
          | tuple parts =>
              exact (Answers.allM fun part _ => hpart part).settling fun hall =>
                (isComplete_tuple hv).trans hall
          | classType name isStruct => exact .query fun _ => rfl
          | enumType name => exact .query fun _ => rfl
          | _ => exact .pure _

end Build

namespace Store

variable {store old new : Store}

theorem Truthful.outcome_isComplete (h : store.Truthful) (type : TypeId) :
    outcome (Build.isComplete type) store = store.isComplete type := by
  have hself : (store.noting store.settled).Truthful := h
  exact (Build.answers_isComplete store type).outcome_eq hself

/-- Asking for completeness leaves truthful notes, and nothing else. -/
theorem Truthful.after_isComplete (h : store.Truthful) (type : TypeId) :
    ∃ settled, after (Build.isComplete type) store = store.noting settled ∧
      (store.noting settled).Truthful := by
  obtain ⟨settled, hs, hrun⟩ := Build.answers_isComplete store type store.settled h
  rw [noting_settled] at hrun
  refine ⟨settled, ?_, hs⟩
  rw [after, hrun]
  cases store.isComplete type <;> rfl

/-- No request makes a note untrue. -/
theorem Truthful.effect (h : store.Truthful) (hw : store.WellFormed) {request : Request}
    (hr : request.Countable) : (request.effect store).Truthful := by
  cases hq : request.isQuestion with
  | true =>
      cases request with
      | isComplete type =>
          obtain ⟨settled, hafter, hs⟩ := h.after_isComplete type
          rw [Request.effect, hafter]
          exact hs
      | _ => cases hq
  | false =>
      have hext := (request.onward_effect hr store hw).1
      have hsame : (request.effect store).settled = store.settled := by
        have := Request.commutes hq store store.settled
        rw [noting_settled] at this
        rw [this, settled_noting]
      intro type hm
      rw [hsame] at hm
      exact hext.isComplete hw (h type hm)

theorem Runs.truthful (h : old.Runs new) (hw : old.WellFormed) (ht : old.Truthful) :
    new.Truthful := by
  induction h with
  | refl => exact ht
  | tail hruns hstep ih =>
      obtain ⟨request, hr, rfl⟩ := hstep
      exact ih.effect (Runs.onward hruns hw).2 hr

theorem Reachable.truthful (h : store.Reachable) : store.Truthful := by
  obtain ⟨target, hruns⟩ := h
  refine hruns.truthful (wellFormed_new target) fun type hm => ?_
  cases hm

end Store

end TypeGraph

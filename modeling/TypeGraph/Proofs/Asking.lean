import TypeGraph.Classification
import TypeGraph.Layout
import TypeGraph.Proofs.Settling
import TypeGraph.Tree.Display
import TypeGraph.Tree.Signature

/-!
Everything that may be asked of a store, and what it answers. Main statement: questions for
completeness may be put in or left out of a run of requests, however many there are, and every later
question and request is answered alike; each of them is answered as if nothing had ever been noted,
and what is complete stays so (`Store.Reachable.notes_unseen`).
-/

namespace TypeGraph

variable {α β : Type}

/-! ### Questions -/

/-- What may be asked of a store. -/
inductive Question where
  | target
  | text (keyword : Keyword)
  | lookup (name : String)
  | segments (path : PathId)
  | strings (path : PathId)
  | parent (path : PathId)
  | last (path : PathId)
  | types
  | shape (type : TypeId)
  | qual (type : TypeId)
  | unqualified (type : TypeId)
  | variants (type : TypeId)
  | paramSet (set : ParamSetId)
  | baseType (type : TypeId)
  | arrayRank (type : TypeId)
  | arrayElement (type : TypeId)
  | tupleParts (type : TypeId)
  | classBody (type : TypeId)
  | enumBody (type : TypeId)
  | dataMember (type : TypeId) (name : String)
  | functionMember (type : TypeId) (name : String)
  | enumValue (type : TypeId) (name : String)
  | openClass (type : TypeId)
  | openEnum (type : TypeId)
  | openAggregates
  | align (type : TypeId)
  | size (type : TypeId)
  | sizePoints (type : TypeId)
  | sizeWords (type : TypeId)
  | sizeBits (type : TypeId)
  | deferredSize (type : TypeId)
  | deferredPoints (type : TypeId)
  | deferredWords (type : TypeId)
  | fixedBits (type : TypeId)
  | integerRank (type : TypeId)
  | has (type : TypeId) (trait : Trait)
  | classify (type : TypeId)
  | display (type : TypeId)
  | signature (type : TypeId)
  | save (type : TypeId)
  | saveTables

namespace Question

/-- What a question is answered with. -/
def Answer : Question → Type
  | .target => Target
  | .text _ => Except Failure String
  | .lookup _ => Option Keyword
  | .segments _ => Except Failure (List Keyword)
  | .strings _ => Except Failure (List String)
  | .parent _ => Except Failure (Option PathId)
  | .last _ => Except Failure (Option Keyword)
  | .types | .openAggregates => List TypeId
  | .shape _ => Except Failure (Shape TypeId ParamSetId PathId)
  | .qual _ => Except Failure (Qual PathId)
  | .unqualified _ | .baseType _ | .arrayElement _ => Except Failure TypeId
  | .variants _ => Except Failure (List TypeId)
  | .paramSet _ => Except Failure ParamSet
  | .arrayRank _ => Except Failure Nat
  | .tupleParts _ => Except Failure (Option (List TypeId))
  | .classBody _ => Except Failure ClassBody
  | .enumBody _ => Except Failure EnumBody
  | .dataMember _ _ | .functionMember _ _ => Except Failure (Option (Member Keyword))
  | .enumValue _ _ => Except Failure (Option Int128)
  | .openClass _ => Except Failure ClassDraft
  | .openEnum _ => Except Failure EnumDraft
  | .align _ | .size _ | .sizePoints _ | .sizeWords _ | .sizeBits _ => Except Failure Count
  | .deferredSize _ | .deferredPoints _ | .deferredWords _ => Except Failure SizeExpr
  | .fixedBits _ => Except Failure (Option FixedBits)
  | .integerRank _ => Except Failure (Option Nat)
  | .has _ _ => Except Failure Bool
  | .classify _ => Except Failure (List Trait)
  | .display _ | .signature _ => Except Failure String
  | .save _ | .saveTables => Output

/-- The answer of a store to a question. -/
def answer (store : Store) : (question : Question) → question.Answer
  | .target => store.target
  | .text keyword => store.names.text keyword
  | .lookup name => store.names.lookup? name
  | .segments path => store.names.segments path
  | .strings path => store.names.strings path
  | .parent path => store.names.parent path
  | .last path => store.names.last path
  | .types => store.types
  | .shape type => store.shape type
  | .qual type => store.qual type
  | .unqualified type => store.unqualified type
  | .variants type => store.variants type
  | .paramSet set => store.paramSet set
  | .baseType type => store.baseType type
  | .arrayRank type => store.arrayRank type
  | .arrayElement type => store.arrayElement type
  | .tupleParts type => store.tupleParts type
  | .classBody type => store.classBody type
  | .enumBody type => store.enumBody type
  | .dataMember type name => store.dataMember type name
  | .functionMember type name => store.functionMember type name
  | .enumValue type name => store.enumValue type name
  | .openClass type => store.openClass type
  | .openEnum type => store.openEnum type
  | .openAggregates => store.openAggregates
  | .align type => store.align type
  | .size type => store.size type
  | .sizePoints type => store.sizePoints type
  | .sizeWords type => store.sizeWords type
  | .sizeBits type => store.sizeBits type
  | .deferredSize type => store.deferredSize type
  | .deferredPoints type => store.deferredPoints type
  | .deferredWords type => store.deferredWords type
  | .fixedBits type => store.fixedBits? type
  | .integerRank type => store.integerRank? type
  | .has type trait => outcome (Build.has type trait) store
  | .classify type => outcome (Build.classify type) store
  | .display type => store.display type
  | .signature type => store.signature type
  | .save type => store.save type
  | .saveTables => store.saveTables

end Question

namespace Request

/-- What a request is answered with. Reading also tells which items are left. -/
def Answer : Request → Type
  | .intern _ => Except Failure Keyword
  | .extend _ _ | .child _ _ | .path _ => Except Failure PathId
  | .retarget _ => Unit
  | .params _ _ => Except Failure ParamSetId
  | .enter _ | .qualify _ _ | .addQual _ _ => Except Failure TypeId
  | .isComplete _ => Except Failure Bool
  | .completeClass _ | .completeEnum _ _ => Except Failure TypeId
  | .loadKeyword _ => Except Failure Keyword × List Item
  | .loadPath _ => Except Failure PathId × List Item
  | .loadType _ => Except Failure TypeId × List Item
  | .loadTables _ => Except Failure (List OpenBody) × List Item
  | .completeAll _ => Except Failure Unit

/-- What a reader gives, and the items that it leaves. -/
def reading (reader : Load α) (store : Store) (items : List Item) : Except Failure α × List Item :=
  (outcome reader ⟨store, items⟩, (after reader ⟨store, items⟩).items)

/-- The answer of a store to a request. -/
def answer (store : Store) : (request : Request) → request.Answer
  | .intern text => outcome (Build.intern text) store
  | .extend parent keyword => outcome (Build.extend parent keyword) store
  | .child parent text => outcome (Build.child parent text) store
  | .path texts => outcome (Build.path texts) store
  | .retarget _ => ()
  | .params types variadic => outcome (Build.params types variadic) store
  | .enter asked => outcome asked.run store
  | .qualify type qual => outcome (Build.qualify type qual) store
  | .addQual type qual => outcome (Build.addQual type qual) store
  | .isComplete type => outcome (Build.isComplete type) store
  | .completeClass draft => outcome (Build.completeClass draft) store
  | .completeEnum draft base => outcome (Build.completeEnum draft base) store
  | .loadKeyword items => reading Load.keyword store items
  | .loadPath items => reading Load.path store items
  | .loadType items => reading Load.type store items
  | .loadTables items => reading Load.tables store items
  | .completeAll bodies => outcome (Build.completeAll bodies) store

end Request

/-! ### Answers that go by the notes -/

namespace Build

open Store

variable {store : Store}

theorem Answers.filterM {f : α → Build Bool} {g : α → Except Failure Bool}
    (h : ∀ a, Answers (f a) (g a) store) (as : List α) :
    Answers (as.filterM f) (as.filterM g) store := by
  have hfrom : ∀ kept : List α,
      Answers (as.filterAuxM f kept) (as.filterAuxM g kept) store := by
    induction as with
    | nil => exact fun kept => .pure kept
    | cons a as ih => exact fun kept => (h a).bind fun holds _ => ih _
  exact (hfrom []).bind fun kept _ => .pure _

theorem answers_has (store : Store) (type : TypeId) (trait : Trait) :
    Answers (Build.has type trait) (store.has type trait) store := by
  cases trait with
  | complete => exact answers_isComplete store type
  | _ => exact .query fun _ => by with_unfolding_all rfl

theorem answers_classify (store : Store) (type : TypeId) :
    Answers (classify type) (Trait.all.filterM (store.has type)) store :=
  Answers.filterM (answers_has store type) _

end Build

/-! ### Answers that do not depend on the notes -/

namespace Store

variable {store : Store} {settled : List TypeId}

theorem Truthful.question_noting (h : store.Truthful) (hs : (store.noting settled).Truthful)
    (question : Question) :
    question.answer (store.noting settled) = question.answer store := by
  have hself : (store.noting store.settled).Truthful := h
  cases question with
  | has type trait =>
      have hanswer := Build.answers_has store type trait
      exact (hanswer.outcome_eq hs).trans (hanswer.outcome_eq hself).symm
  | classify type =>
      have hanswer := Build.answers_classify store type
      exact (hanswer.outcome_eq hs).trans (hanswer.outcome_eq hself).symm
  | _ => with_unfolding_all rfl

theorem reading_noting {reader : Load α} (h : Commutes (Loading.noting · settled) reader)
    (items : List Item) :
    Request.reading reader (store.noting settled) items = Request.reading reader store items :=
  Prod.ext (h.outcome_eq ⟨store, items⟩) (congrArg Loading.items (h.after_eq ⟨store, items⟩) :)

theorem Truthful.request_noting (h : store.Truthful) (hs : (store.noting settled).Truthful)
    (request : Request) :
    request.answer (store.noting settled) = request.answer store := by
  cases request with
  | isComplete type =>
      exact ((Build.answers_isComplete store type).outcome_eq hs).trans
        (h.outcome_isComplete type).symm
  | intern text | path texts | retarget target => rfl
  | extend parent keyword => exact (Build.commutes_extend parent keyword).outcome_eq store
  | child parent text => exact (Build.commutes_child parent text).outcome_eq store
  | params types variadic => exact (Build.commutes_params types variadic).outcome_eq store
  | enter asked => exact (Build.commutes_request asked).outcome_eq store
  | qualify type qual => exact (Build.commutes_qualify type qual).outcome_eq store
  | addQual type qual => exact (Build.commutes_addQual type qual).outcome_eq store
  | completeClass draft => exact (Build.commutes_completeClass draft).outcome_eq store
  | completeEnum draft base => exact (Build.commutes_completeEnum draft base).outcome_eq store
  | loadKeyword items => exact reading_noting Load.composes_commutes.keyword items
  | loadPath items => exact reading_noting Load.composes_commutes.path items
  | loadType items => exact reading_noting Load.commutes_type items
  | loadTables items => exact reading_noting Load.commutes_tables items
  | completeAll bodies => exact (Build.commutes_completeAll bodies).outcome_eq store

/-- Two stores answer whatever they are asked, and whatever is requested of them, alike. -/
structure SameAnswers (a b : Store) : Prop where
  questions : ∀ question : Question, question.answer a = question.answer b
  requests : ∀ request : Request, request.answer a = request.answer b

/-! ### Runs with and without questions for completeness -/

/-- The store that requests lead to, one after the other. -/
def afterAll (store : Store) (requests : List Request) : Store :=
  requests.foldl Request.effect store

theorem runs_afterAll (store : Store) {requests : List Request}
    (hr : ∀ request ∈ requests, request.Countable) : store.Runs (store.afterAll requests) := by
  induction requests generalizing store with
  | nil => exact .refl
  | cons request requests ih =>
      exact .head (step_effect (hr request List.mem_cons_self) store)
        (ih _ fun other hm => hr other (List.mem_cons_of_mem request hm))

theorem Reachable.afterAll (h : store.Reachable) {requests : List Request}
    (hr : ∀ request ∈ requests, request.Countable) : (store.afterAll requests).Reachable :=
  h.runs (store.runs_afterAll hr)

/-- But for the notes, requests lead to where those among them lead that are no questions for
completeness. -/
theorem Reachable.afterAll_noting (h : store.Reachable) {requests : List Request}
    (hr : ∀ request ∈ requests, request.Countable) :
    (store.afterAll requests).noting [] =
      (store.noting []).afterAll (requests.filter (!·.isQuestion)) := by
  induction requests generalizing store with
  | nil => rfl
  | cons request requests ih =>
      have hcount := hr request List.mem_cons_self
      have hrest := ih (h.effect hcount) fun other hm => hr other (List.mem_cons_of_mem request hm)
      cases hq : request.isQuestion with
      | true =>
          cases request with
          | isComplete type =>
              obtain ⟨settled, hafter, _⟩ := h.truthful.after_isComplete type
              rw [Request.effect, hafter, noting_noting] at hrest
              rw [List.filter_cons_of_neg (by simp [hq]), ← hrest, Store.afterAll,
                List.foldl_cons, Request.effect, hafter]
              rfl
          | _ => cases hq
      | false =>
          rw [← Request.commutes hq] at hrest
          rw [List.filter_cons_of_pos (by simp [hq])]
          exact hrest

/-- Truthful stores that differ in their notes only answer alike. -/
theorem Truthful.sameAnswers {a b : Store} (ha : a.Truthful) (hb : b.Truthful)
    (h : a.noting [] = b.noting []) : SameAnswers a b := by
  have hnotes : a.noting b.settled = b := by
    rw [← noting_noting a [], h, noting_noting, noting_settled]
  rw [← hnotes] at hb
  rw [← hnotes]
  exact ⟨fun question => (ha.question_noting hb question).symm,
    fun request => (ha.request_noting hb request).symm⟩

/-- A type is found complete exactly if the search without notes finds it so, and then for good.
Whether and how often that was asked in a run of requests makes no difference to any answer
after it. -/
theorem Reachable.notes_unseen (h : store.Reachable) :
    (∀ type, outcome (Build.isComplete type) store = store.isComplete type) ∧
    (∀ type, outcome (Build.isComplete type) store = .ok true →
      ∀ new, store.Runs new → outcome (Build.isComplete type) new = .ok true) ∧
    ∀ asked unasked : List Request, (∀ request ∈ asked, request.Countable) →
      (∀ request ∈ unasked, request.Countable) →
      asked.filter (!·.isQuestion) = unasked.filter (!·.isQuestion) →
      SameAnswers (store.afterAll asked) (store.afterAll unasked) := by
  refine ⟨h.truthful.outcome_isComplete, ?_, ?_⟩
  · intro type hc new hruns
    rw [h.truthful.outcome_isComplete] at hc
    rw [(h.runs hruns).truthful.outcome_isComplete]
    exact (hruns.onward h.wellFormed).1.isComplete h.wellFormed hc
  · intro asked unasked ha hu hsame
    refine (h.afterAll ha).truthful.sameAnswers (h.afterAll hu).truthful ?_
    rw [h.afterAll_noting ha, h.afterAll_noting hu, hsame]

/-- A tuple over a struct, asked for before and after the struct is completed, or never. -/
theorem Reachable.notes_unseen_tuple :
    let foo : TypeId := ⟨Builtin.all.length⟩
    let tuple : TypeId := ⟨Builtin.all.length + 1⟩
    let entered : List Request :=
      [.path ["foo"], .enter (.classType ⟨1⟩ true), .enter (.tuple [foo])]
    let question : Request := .isComplete tuple
    let completed : Request := .completeClass (.new foo)
    let asked : Store := (Store.new .wide).afterAll (entered ++ [question, completed, question])
    let unasked : Store := (Store.new .wide).afterAll (entered ++ [completed])
    asked.Reachable ∧ asked.settled = [tuple] ∧ unasked.settled = [] ∧
      SameAnswers asked unasked ∧
      outcome (Build.isComplete tuple) unasked = .ok true ∧
      outcome (Build.isComplete tuple) (unasked.withTarget .narrow) = .ok true := by
  intro foo tuple entered question completed asked unasked
  have hnew := reachable_new .wide
  have hasked : ∀ request ∈ entered ++ [question, completed, question], request.Countable := by
    simp [entered, question, completed, Request.Countable, TypeRequest.Countable, UInt64.size]
  have hunasked : ∀ request ∈ entered ++ [completed], request.Countable := by
    simp [entered, completed, Request.Countable, TypeRequest.Countable, UInt64.size]
  have hr : unasked.Reachable := hnew.afterAll hunasked
  have hcomplete : outcome (Build.isComplete tuple) unasked = .ok true := by decide +kernel
  refine ⟨hnew.afterAll hasked, by decide +kernel, by decide +kernel,
    hnew.notes_unseen.2.2 _ _ hasked hunasked rfl, hcomplete, ?_⟩
  exact hr.notes_unseen.2.1 tuple hcomplete _
    (.single ⟨.retarget .narrow, trivial, rfl⟩)

end Store

end TypeGraph

import TypeGraph.Proofs.Safety

/-!
Requests that do not depend on what is noted as complete. Main statement: no request but the
question for completeness looks at the notes or changes them (`Request.commutes`).
-/

namespace TypeGraph

variable {α β ε σ : Type}

/-! ### Requests that a change of the state makes no difference to -/

/-- A result, with a change made to the state that was left. -/
def changing (change : σ → σ) : EStateM.Result ε σ α → EStateM.Result ε σ α
  | .ok a s => .ok a (change s)
  | .error e s => .error e (change s)

/-- After a change of the state, a request gives what it gave without it, and leaves the same but
for that change. -/
def Commutes (change : σ → σ) (m : EStateM ε σ α) : Prop :=
  ∀ s, m (change s) = changing change (m s)

namespace Commutes

variable {change : σ → σ}

theorem pure (a : α) : Commutes change (pure a : EStateM ε σ α) := fun _ => rfl

theorem throw (e : ε) : Commutes change (throw e : EStateM ε σ α) := fun _ => rfl

theorem bind {m : EStateM ε σ α} {f : α → EStateM ε σ β} (hm : Commutes change m)
    (hf : ∀ a, Commutes change (f a)) : Commutes change (m >>= f) := by
  intro s
  rw [run_bind, run_bind, hm s]
  cases m s with
  | ok a next => exact hf a next
  | error e next => rfl

/-- What is done with a state that was looked at must not depend on the change. -/
theorem get_bind {f : σ → EStateM ε σ α} (h : ∀ s, f (change s) = f s)
    (hf : ∀ s, Commutes change (f s)) : Commutes change (get >>= f) := by
  intro s
  rw [run_bind_of_ok (run_get _), run_bind_of_ok (run_get _), h s]
  exact hf s s

theorem mapM {f : α → EStateM ε σ β} (h : ∀ a, Commutes change (f a)) (as : List α) :
    Commutes change (as.mapM f) := by
  induction as with
  | nil => exact pure []
  | cons a as ih =>
      rw [List.mapM_cons]
      exact (h a).bind fun _ => ih.bind fun _ => pure _

theorem forM {f : α → EStateM ε σ PUnit} (h : ∀ a, Commutes change (f a)) (as : List α) :
    Commutes change (as.forM f) := by
  induction as with
  | nil => exact pure _
  | cons a as ih => exact (h a).bind fun _ => ih

theorem outcome_eq {m : EStateM ε σ α} (h : Commutes change m) (s : σ) :
    outcome m (change s) = outcome m s := by
  rw [outcome, outcome, h s]
  cases m s <;> rfl

theorem after_eq {m : EStateM ε σ α} (h : Commutes change m) (s : σ) :
    after m (change s) = change (after m s) := by
  rw [after, after, h s]
  cases m s <;> rfl

end Commutes

/-! ### Notes of what is complete -/

namespace Store

/-- The store with `settled` noted as complete, and nothing else. -/
def noting (store : Store) (settled : List TypeId) : Store := { store with settled }

@[simp] theorem settled_noting (store : Store) (settled : List TypeId) :
    (store.noting settled).settled = settled := rfl

@[simp] theorem noting_noting (store : Store) (settled settled' : List TypeId) :
    (store.noting settled).noting settled' = store.noting settled' := rfl

@[simp] theorem noting_settled (store : Store) : store.noting store.settled = store := rfl

/-- Looking for completeness without the notes does not depend on them. -/
@[simp] theorem isComplete_noting (store : Store) (settled : List TypeId) (type : TypeId) :
    (store.noting settled).isComplete type = store.isComplete type := by
  with_unfolding_all rfl

end Store

namespace Build

open Store

variable {settled : List TypeId}

theorem commutes_query {question : Store → Except Failure α}
    (h : ∀ store : Store, question (store.noting settled) = question store) :
    Commutes (noting · settled) (query question) := by
  intro store
  rw [run_query, run_query, h store]
  cases question store <;> rfl

theorem commutes_naming (change : Names → α × Names) :
    Commutes (noting · settled) (naming change) := fun _ => rfl

theorem commutes_enter (node : Node) : Commutes (noting · settled) (enter node) := fun _ => rfl

theorem commutes_enterParams (set : ParamSet) : Commutes (noting · settled) (enterParams set) :=
  fun _ => rfl

theorem commutes_extend (parent : PathId) (keyword : Keyword) :
    Commutes (noting · settled) (extend parent keyword) :=
  (commutes_query fun _ => rfl).bind fun _ => commutes_naming _

theorem commutes_child (parent : PathId) (text : String) :
    Commutes (noting · settled) (child parent text) :=
  (commutes_naming _).bind fun _ => commutes_extend _ _

theorem commutes_check (type : TypeId) : Commutes (noting · settled) (check type) :=
  (commutes_query fun _ => rfl).bind fun _ => .pure _

theorem commutes_params (types : List TypeId) (variadic : Bool) :
    Commutes (noting · settled) (params types variadic) :=
  (Commutes.forM commutes_check types).bind fun _ => commutes_enterParams _

theorem commutes_qualify (type : TypeId) (qual : Qual PathId) :
    Commutes (noting · settled) (qualify type qual) :=
  (commutes_query fun _ => rfl).bind fun _ => commutes_enter _

theorem commutes_addQual (type : TypeId) (qual : Qual PathId) :
    Commutes (noting · settled) (addQual type qual) :=
  (commutes_query fun _ => rfl).bind fun _ => commutes_qualify _ _

theorem commutes_spelled (wanted : WantedShape) :
    Commutes (noting · settled) (spelled wanted) := by
  refine Commutes.bind ?_ fun _ => commutes_enter _
  cases wanted with
  | function ret set conv | memberFunction owner ret set conv | tuple set => exact fun _ => rfl
  | _ => exact fun _ => rfl

theorem commutes_request (request : TypeRequest) :
    Commutes (noting · settled) request.run := by
  intro store
  have hwanted : request.wanted (store.noting settled) = request.wanted store := by
    cases request <;> rfl
  rw [TypeRequest.run_eq, TypeRequest.run_eq, hwanted]
  cases request.wanted store with
  | ok wanted => exact commutes_spelled wanted store
  | error failure => rfl

theorem commutes_completeClass (draft : ClassDraft) :
    Commutes (noting · settled) (completeClass draft) := by
  refine .get_bind (fun _ => rfl) fun store => ?_
  split
  · exact .throw _
  · refine (commutes_query fun store => ?_).bind fun layout => ?_
    · with_unfolding_all rfl
    · refine (Commutes.mapM (fun _ => (commutes_naming _).bind fun _ => .pure _) _).bind fun _ =>
        (Commutes.mapM (fun _ => (commutes_naming _).bind fun _ => .pure _) _).bind fun _ =>
        (commutes_query fun _ => rfl).bind fun shape => ?_
      cases shape with
      | classType name isStruct => exact fun _ => rfl
      | _ => exact .throw _

theorem commutes_completeEnum (draft : EnumDraft) (base : TypeId) :
    Commutes (noting · settled) (completeEnum draft base) := by
  refine .get_bind (fun _ => rfl) fun store => ?_
  split
  · exact .throw _
  · refine (commutes_query fun _ => rfl).bind fun kind => ?_
    split
    · exact .throw _
    · refine (Commutes.mapM (fun _ => (commutes_naming _).bind fun _ => .pure _) _).bind fun _ =>
        (commutes_query fun _ => rfl).bind fun shape => ?_
      cases shape with
      | enumType name => exact fun _ => rfl
      | _ => exact .throw _

theorem commutes_completeAll (bodies : List OpenBody) :
    Commutes (noting · settled) (completeAll bodies) := by
  refine .forM (fun body => ?_) bodies
  cases body with
  | ofClass draft => exact (commutes_completeClass draft).bind fun _ => .pure _
  | ofEnum draft base => exact (commutes_completeEnum draft base).bind fun _ => .pure _

end Build

/-- A store that is read into, with `settled` noted as complete, and nothing else. -/
def Loading.noting (loading : Loading) (settled : List TypeId) : Loading :=
  { loading with store := loading.store.noting settled }

namespace Load

open Build

variable {settled : List TypeId}

theorem commutes_read (reader : ItemReader α) :
    Commutes (Loading.noting · settled) (read reader) := by
  intro loading
  unfold read Loading.noting
  cases reader loading.items <;> rfl

theorem commutes_build {request : Build α} (h : Commutes (Store.noting · settled) request) :
    Commutes (Loading.noting · settled) (build request) := by
  intro loading
  unfold build Loading.noting
  dsimp only
  rw [h loading.store]
  cases request loading.store <;> rfl

/-- No reader looks at the notes or changes them. -/
theorem composes_commutes :
    Composes fun reader _ => Commutes (Loading.noting · settled) reader where
  pure := .pure
  throw := .throw
  bind := .bind
  read _ := commutes_read _
  build ha := by
    refine commutes_build ?_
    cases ha with
    | intern text | path texts => exact commutes_naming _
    | params types variadic => exact commutes_params types variadic
    | enter asked => exact commutes_request asked
    | qualify type qual => exact commutes_qualify type qual
    | openClass type | openEnum type => exact commutes_query fun _ => rfl

theorem commutes_type : Commutes (Loading.noting · settled) type :=
  .get_bind (fun _ => rfl) fun _ => composes_commutes.typeUpTo _

theorem commutes_tables : Commutes (Loading.noting · settled) tables :=
  composes_commutes.tables commutes_type

end Load

/-- A question for completeness, the only request that has to do with the notes. -/
def Request.isQuestion : Request → Bool
  | .isComplete _ => true
  | _ => false

/-- No other request looks at the notes or changes them. -/
theorem Request.commutes {request : Request} (h : request.isQuestion = false) (store : Store)
    (settled : List TypeId) :
    request.effect (store.noting settled) = (request.effect store).noting settled := by
  cases request with
  | isComplete type => cases h
  | intern text | path texts => rfl
  | extend parent keyword => exact (Build.commutes_extend parent keyword).after_eq store
  | child parent text => exact (Build.commutes_child parent text).after_eq store
  | retarget target => rfl
  | params types variadic => exact (Build.commutes_params types variadic).after_eq store
  | enter asked => exact (Build.commutes_request asked).after_eq store
  | qualify type qual => exact (Build.commutes_qualify type qual).after_eq store
  | addQual type qual => exact (Build.commutes_addQual type qual).after_eq store
  | completeClass draft => exact (Build.commutes_completeClass draft).after_eq store
  | completeEnum draft base => exact (Build.commutes_completeEnum draft base).after_eq store
  | loadKeyword items =>
      exact congrArg Loading.store (Load.composes_commutes.keyword.after_eq ⟨store, items⟩)
  | loadPath items =>
      exact congrArg Loading.store (Load.composes_commutes.path.after_eq ⟨store, items⟩)
  | loadType items => exact congrArg Loading.store (Load.commutes_type.after_eq ⟨store, items⟩)
  | loadTables items => exact congrArg Loading.store (Load.commutes_tables.after_eq ⟨store, items⟩)
  | completeAll bodies => exact (Build.commutes_completeAll bodies).after_eq store

end TypeGraph

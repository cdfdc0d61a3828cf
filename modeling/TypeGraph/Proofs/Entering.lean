import TypeGraph.Proofs.Runs

/-!
How types come into a store. Main statements: what is kept whenever one thing is added, every
request that only adds keeps, and so does reading (`Store.KeptByAdding.effect`). Types are entered
one after another, each without qualifiers or as a variant of one that is there
(`Store.Runs.registers`).
-/

namespace TypeGraph

variable {α : Type}

/-! ### What every addition keeps -/

/-- What is kept by every single addition: of names, of parameter lists, of a type without
qualifiers, of a variant of a type that is there, and of what was found complete. -/
structure Store.KeptByAdding (R : Store → Store → Prop) : Prop where
  names : ∀ store names, R store { store with names }
  paramSets : ∀ store paramSets, R store { store with paramSets }
  plain : ∀ store shape, R store (store.withNode (.plain shape))
  variant : ∀ store type node qual, store.node? type = some node →
    R store (store.withNode ⟨node.shape, qual⟩)
  settled : ∀ store settled, R store { store with settled }

/-- What is kept by every single addition that reading comes down to: of a text, of a path from the
root, and of anything but names. -/
structure Store.KeptByReading (R : Store → Store → Prop) : Prop where
  text : ∀ store text, R store { store with names := (store.names.intern text).2 }
  path : ∀ store texts, R store { store with names := (store.names.path texts).2 }
  paramSets : ∀ store paramSets, R store { store with paramSets }
  plain : ∀ store shape, R store (store.withNode (.plain shape))
  variant : ∀ store type node qual, store.node? type = some node →
    R store (store.withNode ⟨node.shape, qual⟩)
  settled : ∀ store settled, R store { store with settled }

namespace Store.KeptByReading

open Build

variable {R : Store → Store → Prop} (h : KeptByReading R)

include h

theorem settle (type : TypeId) : Keeps R (settle type) :=
  fun store => h.settled store _

variable [Std.Refl R]

theorem params (types : List TypeId) (variadic : Bool) : Keeps R (params types variadic) := by
  intro store
  simp only [after, Build.params, run_checkAll_bind]
  cases types.mapM store.node with
  | error failure => exact Std.Refl.refl store
  | ok nodes => exact h.paramSets store _

theorem qualify (type : TypeId) (qual : Qual PathId) : Keeps R (qualify type qual) := by
  intro store
  simp only [Build.qualify, after, run_bind, run_query]
  cases hs : store.shape type with
  | error failure => exact Std.Refl.refl store
  | ok shape =>
      obtain ⟨node, hn, rfl⟩ := shape_eq_ok.mp hs
      exact h.variant store type node qual hn

variable [Trans R R R]

theorem addQual (type : TypeId) (qual : Qual PathId) : Keeps R (addQual type qual) :=
  (keeps_query _).bind fun own => h.qualify type (own.union qual)

theorem request (asked : TypeRequest) : Keeps R asked.run := by
  intro store
  simp only [after, TypeRequest.run_eq]
  cases asked.wanted store with
  | error failure => exact Std.Refl.refl store
  | ok wanted =>
      obtain ⟨sets, shape, _, hafter⟩ := after_spelled wanted store
      change R store (after (spelled wanted) store)
      rw [hafter]
      exact Trans.trans (h.paramSets store sets) (h.plain _ shape)

/-- The requests that reading comes down to. -/
theorem asks {request : Build α} (ha : Load.Asks request) : Keeps R request := by
  cases ha with
  | intern text => exact fun store => h.text store text
  | path texts => exact fun store => h.path store texts
  | params types variadic => exact h.params types variadic
  | enter asked => exact h.request asked
  | qualify type qual => exact h.qualify type qual
  | openClass type | openEnum type => exact keeps_query _

end Store.KeptByReading

namespace Store.KeptByAdding

open Build

variable {R : Store → Store → Prop} (h : KeptByAdding R)

include h

theorem reading : KeptByReading R where
  text store _ := h.names store _
  path store _ := h.names store _
  paramSets := h.paramSets
  plain := h.plain
  variant := h.variant
  settled := h.settled

theorem naming (change : Names → α × Names) : Keeps R (naming change) :=
  fun store => h.names store _

variable [Std.Refl R] [Trans R R R]

theorem extend (parent : PathId) (keyword : Keyword) : Keeps R (extend parent keyword) :=
  (keeps_query _).bind fun _ => h.naming _

end Store.KeptByAdding

/-! ### Reading -/

/-- The stores before and after reading are related. -/
def Loading.Along (R : Store → Store → Prop) (old new : Loading) : Prop := R old.store new.store

instance {R : Store → Store → Prop} [Std.Refl R] : Std.Refl (Loading.Along R) :=
  ⟨fun loading => Std.Refl.refl (r := R) loading.store⟩

instance {R : Store → Store → Prop} [Trans R R R] :
    Trans (Loading.Along R) (Loading.Along R) (Loading.Along R) where
  trans hab hbc := Trans.trans (r := R) (s := R) (t := R) hab hbc

namespace Load

open Store

variable {R : Store → Store → Prop}

theorem along_build {asked : Build α} (h : Keeps R asked) :
    Keeps (Loading.Along R) (build asked) := by
  intro loading
  have hrun := h loading.store
  simp only [after, build] at hrun ⊢
  cases hr : asked loading.store <;> rwa [hr] at hrun

variable [Std.Refl R]

theorem along_read (reader : ItemReader α) : Keeps (Loading.Along R) (read reader) := by
  intro loading
  simp only [after, read]
  cases reader loading.items <;> exact Std.Refl.refl loading.store

variable [Trans R R R] (h : ∀ {α : Type} {request : Build α}, Asks request → Keeps R request)

include h

/-- What is kept by every request that reading comes down to, all readers keep. -/
theorem composes_along : Composes fun reader _ => Keeps (Loading.Along R) reader where
  pure := .pure
  throw := .throw
  bind := .bind
  read _ := along_read _
  build ha := along_build (h ha)

theorem along_type : Keeps (Loading.Along R) type := fun loading =>
  (composes_along h).typeUpTo loading.items.length loading

theorem along_tables : Keeps (Loading.Along R) tables :=
  (composes_along h).tables (along_type h)

end Load

namespace Store

variable {R : Store → Store → Prop} {store old new : Store}

/-- What every single addition keeps, every request keeps that neither completes anything nor is for
another machine. -/
theorem KeptByAdding.effect [Std.Refl R] [Trans R R R] (h : KeptByAdding R) {request : Request}
    (ho : request.OnlyAdds) (store : Store) : R store (request.effect store) := by
  cases request with
  | intern text => exact h.naming (·.intern text) store
  | extend parent keyword => exact h.extend parent keyword store
  | child parent text => exact (h.naming _).bind (fun keyword => h.extend parent keyword) store
  | path texts => exact h.naming (·.path texts) store
  | params types variadic => exact h.reading.params types variadic store
  | enter asked => exact h.reading.request asked store
  | qualify type qual => exact h.reading.qualify type qual store
  | addQual type qual => exact h.reading.addQual type qual store
  | isComplete type => exact Build.keeps_isComplete h.reading.settle type store
  | loadKeyword items => exact (Load.composes_along h.reading.asks).keyword ⟨store, items⟩
  | loadPath items => exact (Load.composes_along h.reading.asks).path ⟨store, items⟩
  | loadType items => exact Load.along_type h.reading.asks ⟨store, items⟩
  | loadTables items => exact Load.along_tables h.reading.asks ⟨store, items⟩
  | retarget | completeClass | completeEnum | completeAll => exact ho.elim

end Store

/-! ### The types of a store -/

/-- One more type: one without qualifiers, or a variant of a type that is there. -/
inductive Enters (nodes : Table Node) : Table Node → Prop where
  | plain (shape : Shape TypeId ParamSetId PathId) : Enters nodes (nodes.insert (.plain shape))
  | variant {place : Nat} {node : Node} (h : nodes.get? place = some node) (qual : Qual PathId) :
      Enters nodes (nodes.insert ⟨node.shape, qual⟩)

namespace Store

variable {old new : Store}

/-- Types were entered one after another, whatever else was done. -/
def Registers (old new : Store) : Prop := Relation.ReflTransGen Enters old.nodes new.nodes

theorem registers_of_nodes_eq (h : new.nodes = old.nodes) : old.Registers new := by
  rw [Registers, h]

instance : Std.Refl Registers := ⟨fun _ => .refl⟩

instance : Trans Registers Registers Registers where
  trans hab hbc := Relation.ReflTransGen.trans hab hbc

theorem keptByAdding_registers : KeptByAdding Registers where
  names _ _ := registers_of_nodes_eq rfl
  paramSets _ _ := registers_of_nodes_eq rfl
  plain _ shape := .single (.plain shape)
  variant _ _ _ qual h := .single (.variant h qual)
  settled _ _ := registers_of_nodes_eq rfl

end Store

namespace Build

open Store

theorem registers_completeBody (body : OpenBody) : Keeps Registers (completeBody body) :=
  keeps_completing (fun _ _ => registers_of_nodes_eq rfl)
    (fun _ _ _ _ => registers_of_nodes_eq rfl) body

end Build

namespace Store

variable {old new : Store}

theorem Step.registers (h : old.Step new) : old.Registers new := by
  obtain ⟨request, _, rfl⟩ := h
  cases request with
  | retarget target => exact registers_of_nodes_eq rfl
  | completeClass draft => exact Build.registers_completeBody (.ofClass draft) old
  | completeEnum draft base => exact Build.registers_completeBody (.ofEnum draft base) old
  | completeAll bodies =>
      exact Build.keeps_each (fun body _ => Build.registers_completeBody body) old
  | _ =>
      refine keptByAdding_registers.effect ?_ old
      trivial

/-- Whatever is requested, types are entered one after another. -/
theorem Runs.registers (h : old.Runs new) : old.Registers new := by
  induction h with
  | refl => exact Std.Refl.refl old
  | tail _ hstep ih => exact Trans.trans ih hstep.registers

end Store

end TypeGraph

import TypeGraph.Proofs.Faultless

/-!
Paths that name types and address spaces. Main statement: while all of them are paths of the store,
requests over what the store holds leave it so (`TypeRequest.labelled_run`).
-/

namespace TypeGraph

/-- The store knows the path that names a type and the one that names its address space. -/
structure Node.LabelledIn (node : Node) (store : Store) : Prop where
  shape : ∀ name, node.shape.name? = some name → store.Knows name
  space : ∀ name, node.qual.space.name = some name → store.Knows name

namespace Store

variable {store old new : Store}

/-- Every path in a type is a path of the store. -/
def Labelled (store : Store) : Prop :=
  ∀ type node, store.node? type = some node → node.LabelledIn store

theorem Labelled.mono (h : old.Labelled) (hnodes : new.nodes = old.nodes)
    (hext : old.names.Extends new.names) : new.Labelled := by
  intro type node hn
  have hk := h type node (by rwa [node?, ← hnodes])
  exact ⟨fun name hname => (hk.shape name hname).mono hext,
    fun name hname => (hk.space name hname).mono hext⟩

theorem Labelled.withNode (h : store.Labelled) {node : Node} (hk : node.LabelledIn store) :
    (store.withNode node).Labelled := by
  intro type node' hn
  rcases Table.get?_insert_cases hn with hold | ⟨rfl, _⟩
  · exact ⟨(h type node' hold).shape, (h type node' hold).space⟩
  · exact ⟨hk.shape, hk.space⟩

theorem labelled_new (target : Target) : (Store.new target).Labelled := by
  intro type node hn
  obtain ⟨builtin, rfl⟩ := mem_builtinNodes.mp (Table.mem_of_get? hn)
  constructor <;> simp [Node.plain, Shape.name?, Qual.none, Space.generic]

/-- From a store whose types are named by its paths, a store became another such one. -/
def StaysLabelled (old new : Store) : Prop := old.Labelled → new.Labelled

instance : Std.Refl StaysLabelled := ⟨fun _ h => h⟩

instance : Trans StaysLabelled StaysLabelled StaysLabelled where
  trans hab hbc := fun h => hbc (hab h)

end Store

/-! ### Requests for types -/

namespace Build

open Store

/-- Entering a shape enters its parameter list and then one type, of the same name. -/
theorem after_spelled (wanted : WantedShape) (store : Store) :
    ∃ sets shape, shape.name? = wanted.name? ∧
      after (spelled wanted) store =
        Store.withNode { store with paramSets := sets } (.plain shape) := by
  cases wanted <;> exact ⟨_, _, rfl, rfl⟩

end Build

namespace TypeRequest

variable {request : TypeRequest} {store : Store}

/-- A class or enum is asked for by a path of the store. -/
theorem knows_of_wanted (h : request.Given store) {wanted : WantedShape}
    (hw : request.wanted store = .ok wanted) {name : PathId} (hn : wanted.name? = some name) :
    store.Knows name := by
  cases request <;> simp only [TypeRequest.wanted, bind_eq_ok, pure_eq_ok] at hw
  case array | bitfield | pointer | leftRef | rightRef | tuple =>
      obtain ⟨_, _, rfl⟩ := hw
      cases hn
  case function | memberPointer =>
      obtain ⟨_, _, _, _, rfl⟩ := hw
      cases hn
  case memberFunction =>
      obtain ⟨_, _, _, _, _, _, rfl⟩ := hw
      cases hn
  case tupleOf =>
      obtain ⟨params, _, hw⟩ := hw
      split at hw
      · cases hw
      · cases hw
        cases hn
  case classType | enumType =>
      subst hw
      cases hn
      exact h

/-- A request over types and paths of the store enters no type that is named by another path. -/
theorem labelled_run (h : request.Given store) (hl : store.Labelled) :
    (after request.run store).Labelled := by
  simp only [after, run_eq]
  cases hwant : request.wanted store with
  | error failure => exact hl
  | ok wanted =>
      obtain ⟨sets, shape, hname, hafter⟩ := Build.after_spelled wanted store
      change (after (Build.spelled wanted) store).Labelled
      rw [hafter]
      have hl' : Store.Labelled { store with paramSets := sets } := hl.mono rfl (.refl _)
      refine hl'.withNode ⟨fun name hs => ?_, fun name hs => ?_⟩
      · exact knows_of_wanted h hwant (hname ▸ hs)
      · cases hs

end TypeRequest

end TypeGraph

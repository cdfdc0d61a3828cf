import TypeGraph.Proofs.Representing

/-!
Requests to arenas. Main statements: each does what the request to the store does that the arena
stands for (`Edit.refines_enter`, `Edit.refines_qualify`, `Edit.refines_isComplete`,
`Edit.refines_completeClass`).
-/

namespace TypeGraph

theorem Build.after_query {α : Type} (question : Store → Except Failure α) (store : Store) :
    after (query question) store = store := by
  rw [after, run_query]
  cases question store <;> rfl

namespace Edit

open Arena

variable {α β : Type}

theorem run_modifyGet {ε σ : Type} (f : σ → α × σ) (s : σ) :
    (modifyGet f : EStateM ε σ α) s = .ok (f s).1 (f s).2 := rfl

theorem run_query (question : Arena → Except Failure α) (arena : Arena) :
    query question arena = match question arena with
      | .ok a => .ok a arena
      | .error failure => .error failure arena := by
  unfold query
  rw [run_bind_of_ok (run_get arena)]
  cases question arena <;> rfl

theorem refines_query {question : Arena → Except Failure α}
    {question' : Store → Except Failure α}
    (h : ∀ {arena : Arena} {store : Store}, arena.Represents store →
      question arena = question' store) :
    Refines Represents (query question) (Build.query question') := by
  intro arena store hrep
  rw [run_query, Build.run_query, h hrep]
  cases question' store with
  | ok answer => exact .ok answer hrep
  | error failure => exact .error failure hrep

theorem refines_check (type : TypeId) : Refines Represents (check type) (Build.check type) := by
  intro arena store h
  unfold check Build.check
  rw [run_bind, run_bind, run_query, Build.run_query, Arena.slot, Store.node, h.node?_eq]
  cases arena.slot? type with
  | some slot => exact .ok () h
  | none => exact .error _ h

theorem refines_checkParams (set : ParamSetId) :
    Refines Represents (checkParams set) (Build.checkParams set) :=
  (refines_query fun h => h.paramSet_eq set).bind fun _ => .pure _

/-! ### Entering types -/

/-- A shape is found by the map, or appended. -/
theorem refines_plain (shape : Shape TypeId ParamSetId PathId) :
    Refines Represents (plain shape) (Build.plain shape) := by
  intro arena store h
  cases fresh : arena.byShape[shape]? with
  | some type =>
      have hrun : plain shape arena = .ok type arena := by
        simp only [plain, run_modifyGet, fresh]
      rw [hrun, Build.plain, Build.run_enter_of_node? ((h.byShape shape type).mp fresh)]
      exact .ok type h
  | none =>
      have hrun : plain shape arena = .ok ⟨arena.slots.size⟩ (arena.pushPlain shape) := by
        simp only [plain, run_modifyGet, fresh]
      have hnew := h.plain_notMem fresh
      rw [hrun, Build.plain, Build.run_enter, Store.idOf, Table.indexOf_of_notMem hnew, h.size]
      exact .ok _ (h.pushPlain fresh)

theorem refines_enterParams (set : ParamSet) :
    Refines Represents (enterParams set) (Build.enterParams set) := by
  intro arena store h
  obtain ⟨hplace, htable⟩ := arena.paramSets.enter_eq set
  have hrun : enterParams set arena = .ok ⟨(arena.paramSets.enter set).1⟩
      { arena with paramSets := (arena.paramSets.enter set).2 } := rfl
  rw [hrun, Build.run_enterParams, hplace, h.paramSets]
  refine .ok _ (h.withParams ?_)
  rw [htable, h.paramSets]

theorem refines_params (types : List TypeId) (variadic : Bool) :
    Refines Represents (params types variadic) (Build.params types variadic) :=
  (Refines.forM refines_check types).bind fun _ => refines_enterParams _

/-- What is asked for is found or appended, once what it names was found. -/
theorem refines_enter (asked : TypeRequest) :
    Refines Represents (enter asked) asked.run := by
  cases asked with
  | array base extent | bitfield base bits offset | pointer base | leftRef base | rightRef base =>
      exact (refines_check base).bind fun _ => refines_plain _
  | function ret params conv =>
      exact (refines_check ret).bind fun _ => (refines_checkParams params).bind fun _ =>
        refines_plain _
  | memberFunction owner ret params conv =>
      exact (refines_query fun h => h.classOwner_eq owner).bind fun _ =>
        (refines_check ret).bind fun _ => (refines_checkParams params).bind fun _ =>
          refines_plain _
  | memberPointer owner base =>
      exact (refines_query fun h => h.classOwner_eq owner).bind fun _ =>
        (refines_check base).bind fun _ => refines_plain _
  | tuple parts => exact (refines_params parts false).bind fun _ => refines_plain _
  | tupleOf set =>
      refine (refines_query fun h => h.paramSet_eq set).bind fun params => ?_
      cases hv : params.variadic with
      | true => exact .throw _
      | false => exact refines_plain _
  | classType | enumType => exact refines_plain _

/-! ### Qualifiers -/

/-- The four ways to give a variant. -/
theorem run_qualify {arena : Arena} {type : TypeId} {slot : Slot}
    (hs : arena.slot? type = some slot) (qual : Qual PathId) :
    qualify type qual arena =
      if slot.qual = qual then .ok type arena
      else if qual = Qual.none then .ok slot.plain arena
      else match arena.byQual[(slot.plain, qual)]? with
        | some variant => .ok variant arena
        | none => enterVariant slot.plain qual arena := by
  unfold qualify
  rw [run_bind, run_query, Arena.slot, hs]
  dsimp only [orFail]
  split
  · rfl
  · simp only [Qual.isNone_iff]
    split
    · rfl
    · rw [run_bind_of_ok (run_get arena)]
      cases arena.byQual[(slot.plain, qual)]? <;> rfl

/-- Each way to give a variant gives the one that the store has under its shape and qualifiers, or
enters it there. -/
theorem refines_qualify (type : TypeId) (qual : Qual PathId) :
    Refines Represents (qualify type qual) (Build.qualify type qual) := by
  intro arena store h
  cases hs : arena.slot? type with
  | none =>
      unfold qualify Build.qualify
      rw [run_bind, run_query, Arena.slot, run_bind, Build.run_query, ← h.shape_eq, Arena.shape,
        Arena.slot, hs]
      exact .error _ h
  | some slot =>
      have hslot := h.slots type slot hs
      have hshape : store.shape type = .ok slot.shape := Store.shape_eq_ok.mpr ⟨_, hslot.node, rfl⟩
      have hbuild : Build.qualify type qual store = Build.enter ⟨slot.shape, qual⟩ store := by
        rw [Build.qualify, Build.run_query_bind, hshape]
        rfl
      have hthere {variant : TypeId} (hn : store.node? variant = some ⟨slot.shape, qual⟩) :
          Agrees Represents (.ok variant arena) (Build.enter ⟨slot.shape, qual⟩ store) := by
        rw [Build.run_enter_of_node? hn]
        exact .ok variant h
      rw [run_qualify hs, hbuild]
      split
      next hq => exact hthere (hq ▸ hslot.node)
      next =>
        split
        next hq => exact hthere (hq ▸ hslot.plain)
        next hq =>
          cases fresh : arena.byQual[(slot.plain, qual)]? with
          | some variant =>
              obtain ⟨_, shape, hp, hn⟩ := (h.byQual _ _ _).mp fresh
              obtain rfl := congrArg Node.shape (Option.some.inj (hp.symm.trans hslot.plain))
              exact hthere hn
          | none =>
              have hnew : ⟨slot.shape, qual⟩ ∉ store.nodes := h.variant_notMem hslot.plain hq fresh
              have hplain : arena.shape slot.plain = .ok slot.shape := by
                rw [h.shape_eq]
                exact Store.shape_eq_ok.mpr ⟨_, hslot.plain, rfl⟩
              have hrun : enterVariant slot.plain qual arena = .ok ⟨arena.slots.size⟩
                  (arena.pushVariant slot.plain ⟨slot.shape, qual⟩) := by
                unfold enterVariant
                rw [run_bind, run_query, hplain]
                rfl
              rw [Build.run_enter, Store.idOf, Table.indexOf_of_notMem hnew, ← h.size]
              dsimp only
              rw [hrun]
              exact .ok _ (h.pushVariant hslot.plain hq fresh)

theorem refines_addQual (type : TypeId) (qual : Qual PathId) :
    Refines Represents (addQual type qual) (Build.addQual type qual) :=
  (refines_query fun h => h.qual_eq type).bind fun _ => refines_qualify _ _

/-! ### Names -/

theorem agrees_naming {arena : Arena} {store : Store} (h : arena.Represents store)
    {request : Naming α} {a : α} {interner : Interner} {names : Names}
    (hrun : request arena.interner = .ok a interner) (hnames : interner.Represents names) :
    Agrees Represents (naming request arena) (.ok a { store with names }) := by
  unfold naming
  rw [hrun]
  exact .ok a (h.withNames hnames)

theorem naming_bind (request : Naming α) (f : α → Naming β) :
    naming (request >>= f) = naming request >>= fun a => naming (f a) := by
  funext arena
  rw [run_bind]
  unfold naming
  rw [run_bind]
  cases request arena.interner <;> rfl

theorem refines_intern (text : String) :
    Refines Represents (naming (Naming.intern text)) (Build.intern text) := by
  intro arena store h
  obtain ⟨next, hrun, _, hnext⟩ := h.names.run_intern text
  exact agrees_naming h hrun hnext

theorem refines_internOwned (text : String) :
    Refines Represents (naming (Naming.internOwned text)) (Build.intern text) := by
  intro arena store h
  obtain ⟨next, _, hrun, hnext⟩ := h.names.run_intern text
  exact agrees_naming h hrun hnext

theorem refines_path (texts : List String) :
    Refines Represents (naming (Naming.path texts)) (Build.path texts) := by
  intro arena store h
  obtain ⟨next, hrun, hnext⟩ := h.names.run_path texts
  exact agrees_naming h hrun hnext

theorem refines_extend (parent : PathId) (keyword : Keyword) :
    Refines Represents (naming (Naming.extend parent keyword)) (Build.extend parent keyword) := by
  intro arena store h
  cases ha : store.names.segments parent with
  | ok above =>
      have habove := Names.segments_eq_ok.mp ha
      obtain ⟨next, hrun, hnext⟩ := h.names.run_extend habove keyword
      rw [Build.run_extend habove]
      exact agrees_naming h hrun hnext
  | error failure =>
      have hrun := h.names.run_extend_unknown ha keyword
      unfold naming Build.extend
      rw [hrun, Build.run_query_bind, ha]
      exact .error _ h

theorem refines_child (parent : PathId) (text : String) :
    Refines Represents (naming (Naming.child parent text)) (Build.child parent text) := by
  have hsplit : naming (Naming.child parent text) =
      naming (Naming.intern text) >>= fun keyword => naming (Naming.extend parent keyword) :=
    naming_bind _ _
  rw [hsplit]
  exact (refines_intern text).bind fun keyword => refines_extend parent keyword

/-! ### Classes and enums -/

theorem refines_nameMember (member : Member String) :
    Refines Represents (nameMember member) (Build.nameMember member) :=
  (refines_internOwned member.name).bind fun _ => .pure _

theorem refines_nameValue (entry : String × Int128) :
    Refines Represents (nameValue entry) (Build.nameValue entry) :=
  (refines_internOwned entry.1).bind fun _ => .pure _

/-- A class is completed in the maps as in the list of bodies. -/
theorem refines_completeClass (draft : ClassDraft) :
    Refines Represents (completeClass draft) (Build.completeClass draft) := by
  let Open (arena : Arena) (store : Store) : Prop :=
    arena.Represents store ∧ store.classBody? draft.type = none
  have hrep (arena : Arena) (store : Store) (h : Open arena store) : arena.Represents store := h.1
  have hname (member : Member String) : Refines Open (nameMember member)
      (Build.nameMember member) := (refines_nameMember member).keeping fun _ hopen => hopen
  have hlayout : Refines Open (query (·.contents.classLayout draft))
      (Build.query (·.classLayout draft)) :=
    (refines_query fun h => h.classLayout_eq draft).keeping fun store hopen => by
      rwa [Build.after_query]
  intro arena store h
  unfold completeClass Build.completeClass
  rw [run_bind_of_ok (run_get _), run_bind_of_ok (run_get _), h.classes]
  cases hopen : store.classBody? draft.type with
  | some body => exact .error _ h
  | none =>
      refine (hlayout arena store ⟨h, hopen⟩).bind (fun layout arena store ho => ?_) hrep
      refine (Refines.mapM hname _ arena store ho).bind (fun data arena store ho => ?_) hrep
      refine (Refines.mapM hname _ arena store ho).bind ?_ hrep
      rintro functions arena store ⟨h, hopen⟩
      rw [run_bind, run_query, run_bind, Build.run_query, h.shape_eq]
      cases hs : store.shape draft.type with
      | error failure => exact .error _ h
      | ok shape =>
          cases shape with
          | classType name isStruct => exact .ok _ (h.addClass hs hopen _)
          | _ => exact .error _ h

/-- An enum is completed in the maps as in the list of bodies. -/
theorem refines_completeEnum (draft : EnumDraft) (base : TypeId) :
    Refines Represents (completeEnum draft base) (Build.completeEnum draft base) := by
  let Open (arena : Arena) (store : Store) : Prop :=
    arena.Represents store ∧ store.enumBody? draft.type = none
  have hrep (arena : Arena) (store : Store) (h : Open arena store) : arena.Represents store := h.1
  have hname (entry : String × Int128) : Refines Open (nameValue entry) (Build.nameValue entry) :=
    (refines_nameValue entry).keeping fun _ hopen => hopen
  have hkind : Refines Open (query (·.kind base)) (Build.query (·.kind base)) :=
    (refines_query fun h => h.kind_eq base).keeping fun store hopen => by
      rwa [Build.after_query]
  intro arena store h
  unfold completeEnum Build.completeEnum
  rw [run_bind_of_ok (run_get _), run_bind_of_ok (run_get _), h.enums]
  cases hopen : store.enumBody? draft.type with
  | some body => exact .error _ h
  | none =>
      refine (hkind arena store ⟨h, hopen⟩).bind (fun kind arena store ho => ?_) hrep
      dsimp only
      split
      · exact .error _ ho.1
      · refine (Refines.mapM hname draft.values arena store ho).bind ?_ hrep
        rintro values arena store ⟨h, hopen⟩
        rw [run_bind, run_query, run_bind, Build.run_query, h.shape_eq]
        cases hs : store.shape draft.type with
        | error failure => exact .error _ h
        | ok shape =>
            cases shape with
            | enumType name => exact .ok _ (h.addEnum hs hopen _)
            | _ => exact .error _ h

/-! ### Completeness -/

/-- Asking whether a type is complete enters no types. -/
theorem nodes_after_isComplete (type : TypeId) (store : Store) :
    (after (Build.isComplete type) store).nodes = store.nodes := by
  let Same : Store → Store → Prop := fun old new => new.nodes = old.nodes
  have : Std.Refl Same := ⟨fun _ => rfl⟩
  have : Trans Same Same Same := ⟨fun h h' => h'.trans h⟩
  exact Build.keeps_isComplete (R := Same) (fun _ _ => rfl) type store

/-- The note that is put with a tuple is the one that the store has of it. -/
theorem refines_isComplete (type : TypeId) :
    Refines Represents (isComplete type) (Build.isComplete type) := by
  induction hi : type.index using Nat.strongRecOn generalizing type with
  | _ i ih =>
      subst hi
      have hpart (part : Below type) :
          Refines Represents (isComplete part.type) (Build.isComplete part.type) :=
        ih part.type.index part.older part.type rfl
      intro arena store h
      rw [isComplete, Build.isComplete, run_bind, run_query, Arena.slot,
        run_bind_of_ok (run_get store)]
      cases hs : arena.slot? type with
      | none =>
          obtain ⟨hunsettled, hview⟩ := h.unknown hs
          rw [if_neg hunsettled, run_bind, Build.run_query, hview]
          exact .error _ h
      | some slot =>
          have hslot := h.slots type slot hs
          dsimp only [orFail]
          by_cases hm : type ∈ store.settled
          · rw [if_pos (hslot.complete.mpr hm), if_pos hm]
            exact .ok true h
          · rw [if_neg (mt hslot.complete.mp hm), if_neg hm]
            let There (arena : Arena) (store : Store) : Prop :=
              arena.Represents store ∧ type.index < store.nodes.size
            have hview : Refines There (query (·.view type)) (Build.query (·.view type)) :=
              (refines_query fun h => h.view_eq type).keeping fun store hlt => by
                rwa [Build.after_query]
            have hrep (arena : Arena) (store : Store) (h : There arena store) :
                arena.Represents store := h.1
            refine (hview arena store ⟨h, Store.lt_size_of_node? hslot.node⟩).bind ?_ hrep
            rintro view arena store ⟨h, hlt⟩
            cases view with
            | array base extent =>
                dsimp only
                split
                · exact hpart base arena store h
                · exact .ok false h
            | bitfield base bits offset => exact hpart base arena store h
            | tuple parts =>
                have hparts : Refines There (parts.types.allM fun part => isComplete part.type)
                    (parts.types.allM fun part => Build.isComplete part.type) :=
                  Refines.allM fun part _ => (hpart part).keeping fun store hlt => by
                    rwa [nodes_after_isComplete]
                refine (hparts arena store ⟨h, hlt⟩).bind ?_ hrep
                rintro complete arena store ⟨h, hlt⟩
                cases complete with
                | true => exact .ok true (h.settle hlt)
                | false => exact .ok false h
            | classType name isStruct =>
                refine refines_query (fun {arena store} h => ?_) arena store h
                rw [h.unqualified_eq, funext h.classes]
            | enumType name =>
                refine refines_query (fun {arena store} h => ?_) arena store h
                rw [h.unqualified_eq, funext h.enums]
            | _ => exact .ok _ h

end Edit

end TypeGraph

import TypeGraph.Proofs.Reading
import TypeGraph.Proofs.Runs
import TypeGraph.Proofs.Unfolding

/-!
Records read back. Main statements: into any well-formed store, the record of a regular type is read
as a type with the same tree (`Load.canRestore_type`), and into the store it was written from as
that very type, without adding anything (`Store.Reachable.load_save`).
-/

namespace TypeGraph

/-! ### What is written -/

/-- What follows the tag in the record of an array, up to its element. -/
def Extent.recordCount : Extent → Output
  | .fixed count => .count count
  | .variable expr => .word expr.index
  | .incomplete | .unspecified => .empty

def Extent.shapeTag : Extent → ShapeTag
  | .fixed _ => .array
  | .incomplete => .arrayIncomplete
  | .variable _ => .arrayVariable
  | .unspecified => .arrayUnspecified

/-- A space that could be written is no placeholder, and the array it names is known. -/
theorem Output.stop_space {space : Space PathName} (h : space.record.stop = none) :
    space.storage.isPlaceholder = false ∧
      (space.storage.isDeclarable = true → PathName.Known (space.name.getD (.ok []))) := by
  unfold Space.record at h
  split at h
  next => exact absurd h (Output.stop_fail _)
  next hp =>
      refine ⟨by simpa using hp, fun hd => ?_⟩
      rw [if_pos hd] at h
      exact Output.stop_key.mp (Output.stop_append.mp h).2

/-- A space that is no placeholder can be written if the array it names is known. -/
theorem Output.stop_space_of_known {space : Space PathName}
    (hp : space.storage.isPlaceholder = false)
    (h : ∀ name, space.name = some name → PathName.Known name) : space.record.stop = none := by
  simp only [Space.record, hp, Bool.false_eq_true, if_false]
  split
  · refine stop_append.mpr ⟨rfl, stop_key.mpr ?_⟩
    cases hn : space.name with
    | none => exact ⟨[], rfl⟩
    | some name => exact h name hn
  · rfl

theorem Output.stop_qual {qual : Qual PathName} (h : qual.record.stop = none) :
    qual.space.record.stop = none := by
  simp only [Qual.record, Output.stop_append] at h
  exact h.1.1.1.1

namespace Tree

/-- The record of a parameter list. -/
def recordParams (params : Params Tree) : Output :=
  .length params.types ++ .bool params.variadic ++ recordAll params.types

/-- The tag that a record starts with. -/
def head : TreeShape → String
  | .builtin type => type.tag
  | .array _ extent => extent.shapeTag.tag
  | .bitfield .. => ShapeTag.bitfield.tag
  | .pointer _ => ShapeTag.pointer.tag
  | .leftRef _ => ShapeTag.leftRef.tag
  | .rightRef _ => ShapeTag.rightRef.tag
  | .function .. => ShapeTag.function.tag
  | .memberFunction .. => ShapeTag.memberFunction.tag
  | .memberPointer .. => ShapeTag.memberPointer.tag
  | .tuple _ => ShapeTag.tuple.tag
  | .classType _ isStruct => if isStruct then ShapeTag.struct.tag else ShapeTag.union.tag
  | .enumType _ => ShapeTag.enum.tag

/-- What follows the tag up to the qualifiers, in the order in which it is read. -/
def recordFields : TreeShape → Output
  | .builtin _ => .empty
  | .array base extent => extent.recordCount ++ record base
  | .bitfield base bits offset => .word bits ++ (.word offset ++ record base)
  | .pointer base | .leftRef base | .rightRef base => record base
  | .function ret params conv => record ret ++ (recordParams params ++ .str conv.tag)
  | .memberFunction owner ret params conv =>
      record owner ++ (record ret ++ (recordParams params ++ .str conv.tag))
  | .memberPointer owner base => record owner ++ record base
  | .tuple params => recordParams params
  | .classType name _ => .key name
  | .enumType name => .key name

theorem recordShape_eq (shape : TreeShape) :
    recordShape shape = .tag (head shape) ++ recordFields shape := by
  cases shape with
  | array base extent =>
      cases extent <;>
        simp only [recordShape, head, recordFields, Extent.record, Extent.shapeTag,
          Extent.recordCount, Output.append_assoc, Output.empty_append]
  | _ => simp only [recordShape, head, recordFields, recordParams, Output.append_assoc,
      Output.append_empty]

theorem record_eq (tree : Tree) :
    tree.record = .tag (head tree.shape) ++ recordFields tree.shape ++ tree.qual.record := by
  obtain ⟨shape, qual⟩ := tree
  simp only [record, recordShape_eq, Tree.shape, Tree.qual]

theorem stop_recordAll {trees : List Tree} (h : ∀ tree ∈ trees, tree.record.stop = none) :
    (recordAll trees).stop = none := by
  induction trees with
  | nil => rfl
  | cons tree trees ih =>
      exact Output.stop_append.mpr ⟨h tree List.mem_cons_self,
        ih fun other hm => h other (List.mem_cons_of_mem _ hm)⟩

theorem stop_recordParams {params : Params Tree}
    (h : ∀ tree ∈ params.types, tree.record.stop = none) : (recordParams params).stop = none :=
  Output.stop_append.mpr ⟨rfl, stop_recordAll h⟩

theorem within_recordAll {trees : List Tree} {tree : Tree} (hm : tree ∈ trees) :
    tree.record.Within (recordAll trees) := by
  induction trees with
  | nil => cases hm
  | cons first trees ih =>
      rw [recordAll]
      rcases List.mem_cons.mp hm with rfl | hm
      · exact (Output.Within.refl _).left _
      · exact (ih hm).right _

/-- The record of a part stands among the fields of the whole. -/
theorem within_recordFields {shape : TreeShape} {part : Tree} (hm : part ∈ TreeShape.parts shape) :
    part.record.Within (recordFields shape) := by
  have hlist : ∀ {params : Params Tree}, part ∈ params.types →
      part.record.Within (recordParams params) := fun h => (within_recordAll h).right _
  have hself := Output.Within.refl part.record
  cases shape with
  | builtin type => simp [TreeShape.parts] at hm
  | array base extent =>
      obtain rfl : part = base := by simpa [TreeShape.parts] using hm
      exact hself.right _
  | bitfield base bits offset =>
      obtain rfl : part = base := by simpa [TreeShape.parts] using hm
      exact (hself.right _).right _
  | pointer base | leftRef base | rightRef base =>
      obtain rfl : part = base := by simpa [TreeShape.parts] using hm
      exact hself
  | function ret params conv =>
      rcases (by simpa [TreeShape.parts] using hm : part = ret ∨ part ∈ params.types) with rfl | hm
      · exact hself.left _
      · exact ((hlist hm).left _).right _
  | memberFunction owner ret params conv =>
      rcases (by simpa [TreeShape.parts] using hm :
        part = owner ∨ part = ret ∨ part ∈ params.types) with rfl | rfl | hm
      · exact hself.left _
      · exact (hself.left _).right _
      · exact (((hlist hm).left _).right _).right _
  | memberPointer owner base =>
      rcases (by simpa [TreeShape.parts] using hm : part = owner ∨ part = base) with rfl | rfl
      · exact hself.left _
      · exact hself.right _
  | tuple params => exact hlist (by simpa [TreeShape.parts] using hm)
  | classType name isStruct => simp [TreeShape.parts] at hm
  | enumType name => simp [TreeShape.parts] at hm

/-- The record of a part is shorter than that of the whole, which has a tag of its own. -/
theorem record_part {tree : Tree} (h : tree.record.stop = none) {part : Tree}
    (hm : part ∈ tree.parts) :
    part.record.stop = none ∧ part.record.items.length < tree.record.items.length := by
  rw [record_eq tree] at h ⊢
  obtain ⟨⟨ht, hf⟩, _⟩ := by simpa only [Output.stop_append] using h
  obtain ⟨hs, hl⟩ := within_recordFields hm hf
  refine ⟨hs, ?_⟩
  rw [Output.length_items_append (Output.stop_append.mpr ⟨ht, hf⟩), Output.length_items_append ht]
  have hone : (Output.tag (head tree.shape)).items.length = 1 := rfl
  omega

/-- A regular type that could be written has names that are all known. -/
theorem Regular.named {tree : Tree} (hr : tree.Regular) (h : tree.record.stop = none) :
    tree.Named := by
  induction hr with
  | @mk shape qual own _ ih =>
      have hall := h
      rw [record_eq] at h
      obtain ⟨⟨_, hf⟩, hq⟩ := by simpa only [Output.stop_append] using h
      refine .mk ⟨?_, ?_⟩ fun part hm => ih part hm (record_part hall hm).1
      · intro name hn
        cases shape <;> simp only [Shape.name?, reduceCtorEq, Option.some.injEq] at hn
        all_goals exact hn ▸ Output.stop_key.mp hf
      · intro name hn
        have hd : qual.space.storage.isDeclarable = true := by
          rw [← own.space, hn]
          rfl
        have hs : PathName.Known (qual.space.name.getD (.ok [])) :=
          (Output.stop_space (Output.stop_qual hq)).2 hd
        rwa [hn] at hs

end Tree

/-! ### Requests for the shape of a tree -/

namespace Store

variable {store old mid new : Store}

/-- A request for a shape whose parts are there gives a type with that shape written out in full,
and adds nothing if there is one already, whatever its qualifiers. -/
theorem WellFormed.run_request (hw : store.WellFormed) {request : TypeRequest}
    (hr : request.Countable) {wanted : WantedShape} (hwant : request.wanted store = .ok wanted)
    {shape : TreeShape} (hu : store.Unfolds wanted shape)
    (hparts : ∀ part ∈ TreeShape.parts shape, part.Named)
    (hname : ∀ name, shape.name? = some name → PathName.Known name) :
    ∃ type new, request.run store = .ok type new ∧ store.Grows new ∧
      new.tree type = .ok ⟨shape, Qual.none⟩ ∧
      ∀ known qual, store.tree known = .ok ⟨shape, qual⟩ → new = store := by
  obtain ⟨type, new, own, hrun, hg, hn, hs⟩ :=
    Build.run_spelled hw (TypeRequest.wanted_admits hr hw hwant)
  refine ⟨type, new, ?_, hg, ?_, ?_⟩
  · rw [TypeRequest.run_eq, hwant]
    exact hrun
  · exact hg.wellFormed.tree_eq_ok.mpr
      ⟨wanted, .none, ⟨own, hn, hs⟩, hg.unfolds hw hu hparts hname, rfl⟩
  · intro known qual hk
    obtain ⟨wanted', _, ⟨own', hn', hs'⟩, hu', _⟩ := hw.tree_eq_ok.mp hk
    obtain rfl := hu.unique hu'
      (fun part hm _ _ hx hy => hw.type_eq_of_tree_eq (hparts part hm) hx hy) hname
    have hplain := node?_idOf (hw.plain known _ hn')
    rw [Build.run_spelled_of_node? hplain hs'] at hrun
    cases hrun
    rfl

/-- A path is entered so that it reads back, and adds nothing if it is there already. -/
theorem WellFormed.run_path (hw : store.WellFormed) (texts : List String) :
    ∃ path new, Build.path texts store = .ok path new ∧ store.Grows new ∧
      new.pathName path = .ok texts ∧
      ∀ known, store.pathName known = .ok texts → new = store := by
  obtain ⟨hc, hs⟩ := Names.path_spec hw.names texts
  refine ⟨(store.names.path texts).1, { store with names := (store.names.path texts).2 }, rfl,
    hw.grows_withNames (Names.extends_path _ _) hc, hs, ?_⟩
  intro known hk
  have hp : store.names.path texts = (known, store.names) := Names.path_of_strings hw.names hk
  rw [hp]

/-- A parameter list of types of the store is entered, and adds nothing if it is there already. -/
theorem WellFormed.run_params (hw : store.WellFormed) {params : ParamSet} {trees : Params Tree}
    (hl : params.types.length < UInt64.size)
    (ht : Params.Rel (fun type tree => store.tree type = .ok tree) params trees)
    (hnamed : ∀ tree ∈ trees.types, tree.Named) :
    ∃ set new, Build.params params.types params.variadic store = .ok set new ∧ store.Grows new ∧
      new.paramSet set = .ok params ∧
      Params.Rel (fun type tree => new.tree type = .ok tree) params trees ∧
      ∀ known, store.paramSet known = .ok params → new = store := by
  have hall : ∀ type ∈ params.types, ∃ node, store.node type = .ok node := by
    intro type hm
    obtain ⟨tree, _, htree⟩ := forall₂_exists_right ht.types hm
    exact hw.node_of_tree htree
  obtain ⟨nodes, hnodes⟩ := forall₂_exists hall
  have hcheck := mapM_eq_ok.mpr hnodes
  have hlists : store.Lists params := Build.lists_of_mapM_node hl hcheck
  have hg := hw.grows_withParams hlists
  refine ⟨_, _, ?_, hg, store.paramSet_withParams params, ?_, ?_⟩
  · rw [Build.params, Build.run_checkAll_bind, hcheck]
    rfl
  · refine ⟨(forall₂_mem_right ht.types).imp ?_, ht.variadic⟩
    rintro type tree ⟨hm, htree⟩
    exact hg.tree hw (hnamed tree hm) htree
  · intro known hk
    rw [Store.withParams, Table.insert_of_get? (paramSet_eq_ok.mp hk)]

/-- The variant of a type with given qualifiers is entered, and nothing is added if it is there. -/
theorem WellFormed.run_qualify (hw : store.WellFormed) {type : TypeId} {shape : TreeShape}
    {plain written : Qual PathName} (ht : store.tree type = .ok ⟨shape, plain⟩)
    (hnamed : Tree.Named ⟨shape, written⟩) {own : Qual PathId}
    (hown : own.map store.pathName = written) :
    ∃ variant new, Build.qualify type own store = .ok variant new ∧ store.Grows new ∧
      new.tree variant = .ok ⟨shape, written⟩ ∧
      ∀ known, store.tree known = .ok ⟨shape, written⟩ → new = store := by
  obtain ⟨wanted, _, ⟨numbered, hn, hs⟩, hu, _⟩ := hw.tree_eq_ok.mp ht
  cases hnamed with
  | mk hname hparts =>
      have hrun : Build.qualify type own store =
          .ok (store.idOf ⟨numbered, own⟩) (store.withNode ⟨numbered, own⟩) :=
        Build.run_qualify_eq_ok.mpr ⟨_, hn, rfl, rfl⟩
      have hg : store.Grows _ := (Build.keeps_qualify type own).of_ok hrun hw
      refine ⟨_, _, hrun, hg, ?_, ?_⟩
      · exact hg.wellFormed.tree_eq_ok.mpr ⟨wanted, own,
          ⟨numbered, store.node?_withNode ⟨numbered, own⟩, hg.extends_.spelling hs⟩,
          hg.unfolds hw hu hparts hname.name, hg.extends_.map_pathName hname.space hown⟩
      · intro known hk
        obtain ⟨wanted', own', ⟨numbered', hn', hs'⟩, hu', hq'⟩ := hw.tree_eq_ok.mp hk
        obtain rfl := hu.unique hu'
          (fun part hm _ _ hx hy => hw.type_eq_of_tree_eq (hparts part hm) hx hy) hname.name
        obtain rfl := shape_eq_of_spelling_eq hs hs'
        obtain rfl := qual_eq_of_map_eq hown hq' hname.space
        rw [Build.run_qualify_of_node? hn hn', EStateM.Result.ok.injEq] at hrun
        exact hrun.2.symm

end Store

/-- A class without qualifiers owns its members itself. -/
theorem Store.WellFormed.classOwner_of_tree {store : Store} (hw : store.WellFormed) {type : TypeId}
    {tree : Tree} (h : store.tree type = .ok tree)
    (hc : ∃ name isStruct, tree = ⟨.classType name isStruct, Qual.none⟩) :
    store.classOwner type = .ok type := by
  obtain ⟨name, isStruct, rfl⟩ := hc
  obtain ⟨wanted, qual, ⟨shape, hn, hs⟩, hu, hq⟩ := hw.tree_eq_ok.mp h
  have hshape : ∃ path, shape = .classType path isStruct := by
    rw [Store.spelling_eq_ok] at hs
    cases hu
    cases hs
    exact ⟨_, rfl⟩
  obtain ⟨path, rfl⟩ := hshape
  obtain rfl : qual = Qual.none :=
    Store.qual_eq_of_map_eq hq rfl (by simp [Tree.qual, Qual.none, Space.generic])
  exact Store.classOwner_of_node? hn

namespace Load

variable {old mid new : Store}

/-! ### Lists and names -/

/-- A reader takes the record of a tree back and gives a type with that tree. A type that has it
already is found and nothing is added. -/
structure Restores (m : Load TypeId) (tree : Tree) (old : Store) (type : TypeId) (new : Store) :
    Prop where
  reads : Reads m tree.record old type new
  grows : old.Grows new
  unfolds : new.tree type = .ok tree
  known : ∀ known, old.tree known = .ok tree → new = old

/-- A reader takes the record of a tree back into any well-formed store. -/
structure CanRestore (m : Load TypeId) (tree : Tree) : Prop where
  named : tree.Named
  written : tree.record.stop = none
  restores : ∀ old, old.WellFormed → ∃ type new, Restores m tree old type new

theorem restores_times {m : Load TypeId} {trees : List Tree}
    (h : ∀ tree ∈ trees, CanRestore m tree) :
    ∀ old, old.WellFormed → ∃ types new,
      Reads (times m trees.length) (Tree.recordAll trees) old types new ∧ old.Grows new ∧
      List.Forall₂ (fun type tree => new.tree type = .ok tree) types trees ∧
      ∀ known, List.Forall₂ (fun type tree => old.tree type = .ok tree) known trees →
        new = old := by
  induction trees with
  | nil => exact fun old hw => ⟨[], old, .pure [] old, hw.grows, .nil, fun _ _ => rfl⟩
  | cons tree trees ih =>
      intro old hw
      have hfirst := h tree List.mem_cons_self
      obtain ⟨type, mid, hr⟩ := hfirst.restores old hw
      obtain ⟨types, new, hreads, hg, htrees, hknown⟩ :=
        ih (fun other hm => h other (List.mem_cons_of_mem _ hm)) mid hr.grows.wellFormed
      refine ⟨type :: types, new, ?_, hr.grows.trans hg, .cons ?_ htrees, ?_⟩
      · exact hr.reads.bind hfirst.written (hreads.last (.pure _ new))
      · exact hg.tree hr.grows.wellFormed hfirst.named hr.unfolds
      · rintro _ (_ | ⟨hk, hks⟩)
        obtain rfl := hr.known _ hk
        exact hknown _ hks

theorem restores_params {m : Load TypeId} {trees : Params Tree}
    (hl : trees.types.length < UInt64.size)
    (h : ∀ tree ∈ trees.types, CanRestore m tree) (old : Store) (hw : old.WellFormed) :
    ∃ set new list, Reads (params m) (Tree.recordParams trees) old set new ∧ old.Grows new ∧
      new.paramSet set = .ok list ∧
      Params.Rel (fun type tree => new.tree type = .ok tree) list trees ∧
      ∀ known list', old.paramSet known = .ok list' →
        Params.Rel (fun type tree => old.tree type = .ok tree) list' trees → new = old := by
  obtain ⟨types, mid, hreads, hg, htrees, hknown⟩ := restores_times h old hw
  have hlength := htrees.length_eq
  have hnamed : ∀ tree ∈ trees.types, tree.Named := fun tree hm => (h tree hm).named
  have hmid : Params.Rel (fun type tree => mid.tree type = .ok tree) ⟨types, trees.variadic⟩
      trees :=
    ⟨htrees, rfl⟩
  obtain ⟨set, new, hrun, hg', hset, hrel, hknown'⟩ :=
    hg.wellFormed.run_params (hlength ▸ hl) hmid hnamed
  refine ⟨set, new, _, ?_, hg.trans hg', hset, hrel, ?_⟩
  · have hcount : (UInt64.ofNat trees.types.length).toNat = trees.types.length :=
      UInt64.toNat_ofNat_of_lt' hl
    have hlast : Reads (do
        let types ← times m (UInt64.ofNat trees.types.length).toNat
        build (Build.params types trees.variadic)) (Tree.recordAll trees.types) old set new := by
      rw [hcount]
      exact hreads.last (.build hrun)
    unfold Load.params Tree.recordParams
    rw [Output.append_assoc]
    exact (Reads.count _ old).bind rfl ((Reads.bool _ old).bind rfl hlast)
  · intro known list' hk hk'
    obtain rfl := hknown _ hk'.types
    have heq : list' = ⟨types, trees.variadic⟩ := Params.Rel.unique
      (S := fun type tree => tree ∈ trees.types ∧ mid.tree type = .ok tree)
      (fun x y tree hx hy => hw.type_eq_of_tree_eq (hnamed tree hy.1) hx hy.2) hk'
      ⟨forall₂_mem_right htrees, rfl⟩
    exact hknown' known (heq ▸ hk)

theorem restores_path (texts : List String) (old : Store) (hw : old.WellFormed) :
    ∃ name new, Reads path (.key (.ok texts)) old name new ∧ old.Grows new ∧
      new.pathName name = .ok texts ∧ ∀ known, old.pathName known = .ok texts → new = old := by
  obtain ⟨name, new, hrun, hg, hname, hknown⟩ := hw.run_path texts
  exact ⟨name, new, (Reads.key texts old).last (.build hrun), hg, hname, hknown⟩

/-! ### Shapes -/

/-- The fields of a shape, after its tag, are taken back as a type without qualifiers. A type of
that shape is found whatever its qualifiers, and then nothing is added. -/
structure RestoresShape (m : Load TypeId) (shape : TreeShape) (old : Store) (type : TypeId)
    (new : Store) : Prop where
  reads : Reads m (Tree.recordFields shape) old type new
  grows : old.Grows new
  unfolds : new.tree type = .ok ⟨shape, Qual.none⟩
  known : ∀ known qual, old.tree known = .ok ⟨shape, qual⟩ → new = old

/-- Once the parts are read, the request for the shape comes last. -/
theorem restoresShape_of_request {m : Load TypeId} {shape : TreeShape} (request : TypeRequest)
    {wanted : WantedShape} (hg : old.Grows mid) (hr : request.Countable)
    (hwant : request.wanted mid = .ok wanted) (hu : mid.Unfolds wanted shape)
    (hparts : ∀ part ∈ TreeShape.parts shape, part.Named)
    (hname : ∀ name, shape.name? = some name → PathName.Known name)
    (hknown : ∀ known qual, old.tree known = .ok ⟨shape, qual⟩ → mid = old)
    (hreads : ∀ type new, request.run mid = .ok type new →
      Reads m (Tree.recordFields shape) old type new) :
    ∃ type new, RestoresShape m shape old type new := by
  obtain ⟨type, new, hrun, hg', htree, hknown'⟩ :=
    hg.wellFormed.run_request hr hwant hu hparts hname
  refine ⟨type, new, hreads type new hrun, hg.trans hg', htree, fun known qual hk => ?_⟩
  obtain rfl := hknown known qual hk
  exact hknown' known qual hk

/-- A shape built on one other type. -/
theorem restoresShape_of_base {m fields : Load TypeId} {shape : TreeShape} {base : Tree}
    (request : TypeId → TypeRequest) (wanted : TypeId → WantedShape) (hb : CanRestore m base)
    (hw : old.WellFormed) (hparts : TreeShape.parts shape = [base])
    (hbase : shape.base? = some base) (hname : shape.name? = none)
    (hr : ∀ type, (request type).Countable)
    (hwant : ∀ store type node, Store.node store type = .ok node →
      (request type).wanted store = .ok (wanted type))
    (hu : ∀ store type, Store.tree store type = .ok base → store.Unfolds (wanted type) shape)
    (hreads : ∀ part mid type new, Reads m base.record old part mid →
      (request part).run mid = .ok type new →
      Reads fields (Tree.recordFields shape) old type new) :
    ∃ type new, RestoresShape fields shape old type new := by
  obtain ⟨part, mid, hp⟩ := hb.restores old hw
  obtain ⟨node, hn⟩ := hp.grows.wellFormed.node_of_tree hp.unfolds
  refine restoresShape_of_request (request part) hp.grows (hr part) (hwant mid part node hn)
    (hu mid part hp.unfolds) ?_ (by simp [hname]) ?_ (hreads part mid · · hp.reads)
  · rw [hparts]
    intro other hm
    rw [List.mem_singleton.mp hm]
    exact hb.named
  · intro known qual hk
    obtain ⟨other, ho⟩ := hw.base_of_tree hk hbase
    exact hp.known other ho

theorem restores_array {m : Load TypeId} {base : Tree} (hb : CanRestore m base) (extent : Extent)
    (hw : old.WellFormed) :
    ∃ type new, RestoresShape (fields m extent.shapeTag) (.array base extent) old type new := by
  refine restoresShape_of_base (.array · extent) (.array · extent) hb hw rfl rfl rfl
    (fun _ => trivial) ?_ (fun _ _ h => .array extent h) ?_
  · intro store type node hn
    simp only [TypeRequest.wanted, hn]
    rfl
  · intro part mid type new hp hrun
    rcases extent with count | _ | expr | _
    · exact (Reads.count count old).bind rfl (hp.last (.build hrun))
    · exact hp.last (.build hrun)
    · exact (Reads.word expr.index old).bind rfl (hp.last (.build hrun))
    · exact hp.last (.build hrun)

theorem restores_bitfield {m : Load TypeId} {base : Tree} (hb : CanRestore m base)
    (bits offset : UInt32) (hw : old.WellFormed) :
    ∃ type new, RestoresShape (fields m .bitfield) (.bitfield base bits offset) old type new := by
  refine restoresShape_of_base (.bitfield · bits offset) (.bitfield · bits offset) hb hw rfl rfl rfl
    (fun _ => trivial) ?_ (fun _ _ h => .bitfield bits offset h) ?_
  · intro store type node hn
    simp only [TypeRequest.wanted, hn]
    rfl
  · intro part mid type new hp hrun
    exact (Reads.word bits old).bind rfl ((Reads.word offset old).bind rfl (hp.last (.build hrun)))

theorem restores_pointer {m : Load TypeId} {base : Tree} (hb : CanRestore m base)
    (hw : old.WellFormed) :
    ∃ type new, RestoresShape (fields m .pointer) (.pointer base) old type new := by
  refine restoresShape_of_base .pointer .pointer hb hw rfl rfl rfl (fun _ => trivial) ?_
    (fun _ _ h => .pointer h) (fun _ _ _ _ hp hrun => hp.last (.build hrun))
  intro store type node hn
  simp only [TypeRequest.wanted, hn]
  rfl

theorem restores_leftRef {m : Load TypeId} {base : Tree} (hb : CanRestore m base)
    (hw : old.WellFormed) :
    ∃ type new, RestoresShape (fields m .leftRef) (.leftRef base) old type new := by
  refine restoresShape_of_base .leftRef .leftRef hb hw rfl rfl rfl (fun _ => trivial) ?_
    (fun _ _ h => .leftRef h) (fun _ _ _ _ hp hrun => hp.last (.build hrun))
  intro store type node hn
  simp only [TypeRequest.wanted, hn]
  rfl

theorem restores_rightRef {m : Load TypeId} {base : Tree} (hb : CanRestore m base)
    (hw : old.WellFormed) :
    ∃ type new, RestoresShape (fields m .rightRef) (.rightRef base) old type new := by
  refine restoresShape_of_base .rightRef .rightRef hb hw rfl rfl rfl (fun _ => trivial) ?_
    (fun _ _ h => .rightRef h) (fun _ _ _ _ hp hrun => hp.last (.build hrun))
  intro store type node hn
  simp only [TypeRequest.wanted, hn]
  rfl

theorem restores_function {m : Load TypeId} {ret : Tree} {list : Params Tree} (conv : Convention)
    (hret : CanRestore m ret) (hl : list.types.length < UInt64.size)
    (hlist : ∀ tree ∈ list.types, CanRestore m tree) (hw : old.WellFormed) :
    ∃ type new, RestoresShape (fields m .function) (.function ret list conv) old type new := by
  obtain ⟨part, next, hp⟩ := hret.restores old hw
  have hw' := hp.grows.wellFormed
  obtain ⟨set, mid, types, hreads, hg, hset, hrel, hknown⟩ := restores_params hl hlist next hw'
  have hunfolds := hg.tree hw' hret.named hp.unfolds
  obtain ⟨node, hn⟩ := hg.wellFormed.node_of_tree hunfolds
  have hwant : (TypeRequest.function part set conv).wanted mid =
      .ok (.function part types conv) := by
    simp only [TypeRequest.wanted, hn, hset]
    rfl
  refine restoresShape_of_request (.function part set conv) (hp.grows.trans hg) trivial hwant
    (.function conv hunfolds hrel) ?_ (by simp [Shape.name?]) ?_ ?_
  · intro tree hm
    rcases List.mem_cons.mp hm with rfl | hm
    · exact hret.named
    · exact (hlist tree hm).named
  · intro known qual hk
    obtain ⟨_, hr⟩ := hw.base_of_tree hk rfl
    obtain rfl := hp.known _ hr
    obtain ⟨_, _, hset', hl'⟩ := hw.params_of_tree hk rfl
    exact hknown _ _ hset' hl'
  · intro type new hrun
    have hwritten := Tree.stop_recordParams fun tree hm => (hlist tree hm).written
    exact hp.reads.bind hret.written
      (hreads.bind hwritten ((Reads.tagged conv mid).last (.build hrun)))

theorem restores_memberFunction {m : Load TypeId} {owner ret : Tree} {list : Params Tree}
    (conv : Convention) (hown : ∃ name isStruct, owner = ⟨.classType name isStruct, Qual.none⟩)
    (howner : CanRestore m owner) (hret : CanRestore m ret) (hl : list.types.length < UInt64.size)
    (hlist : ∀ tree ∈ list.types, CanRestore m tree) (hw : old.WellFormed) :
    ∃ type new, RestoresShape (fields m .memberFunction) (.memberFunction owner ret list conv) old
      type new := by
  obtain ⟨class_, first, ho⟩ := howner.restores old hw
  obtain ⟨part, next, hp⟩ := hret.restores first ho.grows.wellFormed
  have hw' := hp.grows.wellFormed
  obtain ⟨set, mid, types, hreads, hg, hset, hrel, hknown⟩ := restores_params hl hlist next hw'
  have hunfolds := hg.tree hw' hret.named hp.unfolds
  have hclass := (hp.grows.trans hg).tree ho.grows.wellFormed howner.named ho.unfolds
  obtain ⟨node, hn⟩ := hg.wellFormed.node_of_tree hunfolds
  have hwant : (TypeRequest.memberFunction class_ part set conv).wanted mid =
      .ok (.memberFunction class_ part types conv) := by
    simp only [TypeRequest.wanted, hg.wellFormed.classOwner_of_tree hclass hown, hn, hset]
    rfl
  refine restoresShape_of_request (.memberFunction class_ part set conv)
    ((ho.grows.trans hp.grows).trans hg) trivial hwant
    (.memberFunction conv hclass hunfolds hrel) ?_ (by simp [Shape.name?]) ?_ ?_
  · intro tree hm
    rcases List.mem_cons.mp hm with rfl | hm
    · exact howner.named
    · rcases List.mem_cons.mp hm with rfl | hm
      · exact hret.named
      · exact (hlist tree hm).named
  · intro known qual hk
    obtain ⟨_, ho'⟩ := hw.owner_of_tree hk rfl
    obtain rfl := ho.known _ ho'
    obtain ⟨_, hr⟩ := hw.base_of_tree hk rfl
    obtain rfl := hp.known _ hr
    obtain ⟨_, _, hset', hl'⟩ := hw.params_of_tree hk rfl
    exact hknown _ _ hset' hl'
  · intro type new hrun
    have hwritten := Tree.stop_recordParams fun tree hm => (hlist tree hm).written
    exact ho.reads.bind howner.written (hp.reads.bind hret.written
      (hreads.bind hwritten ((Reads.tagged conv mid).last (.build hrun))))

theorem restores_memberPointer {m : Load TypeId} {owner base : Tree}
    (hown : ∃ name isStruct, owner = ⟨.classType name isStruct, Qual.none⟩)
    (howner : CanRestore m owner) (hbase : CanRestore m base) (hw : old.WellFormed) :
    ∃ type new, RestoresShape (fields m .memberPointer) (.memberPointer owner base) old type
      new := by
  obtain ⟨class_, first, ho⟩ := howner.restores old hw
  have hw' := ho.grows.wellFormed
  obtain ⟨part, mid, hp⟩ := hbase.restores first hw'
  have hclass := hp.grows.tree hw' howner.named ho.unfolds
  obtain ⟨node, hn⟩ := hp.grows.wellFormed.node_of_tree hp.unfolds
  have hwant : (TypeRequest.memberPointer class_ part).wanted mid =
      .ok (.memberPointer class_ part) := by
    simp only [TypeRequest.wanted, hp.grows.wellFormed.classOwner_of_tree hclass hown, hn]
    rfl
  refine restoresShape_of_request (.memberPointer class_ part) (ho.grows.trans hp.grows) trivial
    hwant (.memberPointer hclass hp.unfolds) ?_ (by simp [Shape.name?]) ?_ ?_
  · intro tree hm
    rcases List.mem_cons.mp hm with rfl | hm
    · exact howner.named
    · rw [List.mem_singleton.mp hm]
      exact hbase.named
  · intro known qual hk
    obtain ⟨_, ho'⟩ := hw.owner_of_tree hk rfl
    obtain rfl := ho.known _ ho'
    obtain ⟨_, hb⟩ := hw.base_of_tree hk rfl
    exact hp.known _ hb
  · intro type new hrun
    exact ho.reads.bind howner.written (hp.reads.last (.build hrun))

theorem restores_tuple {m : Load TypeId} {list : Params Tree} (hclosed : list.variadic = false)
    (hl : list.types.length < UInt64.size) (hlist : ∀ tree ∈ list.types, CanRestore m tree)
    (hw : old.WellFormed) :
    ∃ type new, RestoresShape (fields m .tuple) (.tuple list) old type new := by
  obtain ⟨set, mid, types, hreads, hg, hset, hrel, hknown⟩ := restores_params hl hlist old hw
  have hwant : (TypeRequest.tupleOf set).wanted mid = .ok (.tuple types) := by
    simp only [TypeRequest.wanted, hset]
    exact if_neg (by simp [hrel.variadic, hclosed])
  refine restoresShape_of_request (.tupleOf set) hg trivial hwant (.tuple hrel)
    (fun tree hm => (hlist tree hm).named) (by simp [Shape.name?]) ?_ ?_
  · intro known qual hk
    obtain ⟨_, _, hset', hl'⟩ := hw.params_of_tree hk rfl
    exact hknown _ _ hset' hl'
  · intro type new hrun
    exact hreads.last (.build hrun)

theorem restores_classType {m : Load TypeId} (texts : List String) (isStruct : Bool)
    (hw : old.WellFormed) :
    ∃ type new, RestoresShape (fields m (if isStruct then .struct else .union))
      (.classType (.ok texts) isStruct) old type new := by
  obtain ⟨name, mid, hp, hg, hname, hknown⟩ := restores_path texts old hw
  refine restoresShape_of_request (.classType name isStruct) hg trivial rfl
    (.classType isStruct hname) (by simp [TreeShape.parts]) ?_ ?_ ?_
  · rintro _ ⟨⟩
    exact ⟨texts, rfl⟩
  · intro known qual hk
    obtain ⟨_, hn⟩ := hw.name_of_tree hk rfl
    exact hknown _ hn
  · intro type new hrun
    cases isStruct <;> exact hp.last (.build hrun)

theorem restores_enumType {m : Load TypeId} (texts : List String) (hw : old.WellFormed) :
    ∃ type new, RestoresShape (fields m .enum) (.enumType (.ok texts)) old type new := by
  obtain ⟨name, mid, hp, hg, hname, hknown⟩ := restores_path texts old hw
  refine restoresShape_of_request (.enumType name) hg trivial rfl (.enumType hname)
    (by simp [TreeShape.parts]) ?_ ?_ ?_
  · rintro _ ⟨⟩
    exact ⟨texts, rfl⟩
  · intro known qual hk
    obtain ⟨_, hn⟩ := hw.name_of_tree hk rfl
    exact hknown _ hn
  · intro type new hrun
    exact hp.last (.build hrun)

theorem unqualified_tag (m : Load TypeId) (tag : ShapeTag) :
    unqualified m tag.tag = fields m tag := by
  have h : Tagged.ofTag? tag.tag = some tag := Tagged.ofTag?_tag tag
  simp only [unqualified, h]

/-- No builtin type shares its tag with another shape. -/
theorem unqualified_builtin (m : Load TypeId) (type : Builtin) :
    unqualified m type.tag = pure (.builtin type) := by
  have hall : ∀ other ∈ Builtin.all, Tagged.ofTag? (α := ShapeTag) other.tag = none := by
    decide +kernel
  have hshape := hall type (Builtin.mem_all type)
  have h : Tagged.ofTag? type.tag = some type := Tagged.ofTag?_tag type
  simp only [unqualified, hshape, h]

theorem restores_builtin {m : Load TypeId} (type : Builtin) (hw : old.WellFormed) :
    ∃ id new, RestoresShape (unqualified m type.tag) (.builtin type) old id new := by
  rw [unqualified_builtin]
  refine ⟨.builtin type, old, .pure _ old, hw.grows, ?_, fun _ _ _ => rfl⟩
  exact hw.tree_eq_ok.mpr ⟨.builtin type, .none,
    ⟨_, hw.node?_builtin type, Store.spelling_eq_ok.mpr (.builtin type)⟩, .builtin type, rfl⟩

/-- Whatever the shape is, its tag and fields are read as it. -/
theorem restores_unqualified {m : Load TypeId} {shape : TreeShape} {qual : Qual PathName}
    (hr : shape.Regular qual) (hn : shape.Named qual)
    (hparts : ∀ part ∈ TreeShape.parts shape, CanRestore m part) (hw : old.WellFormed) :
    ∃ type new, RestoresShape (unqualified m (Tree.head shape)) shape old type new := by
  cases shape with
  | builtin type => exact restores_builtin type hw
  | array base extent =>
      rw [Tree.head, unqualified_tag]
      exact restores_array (hparts base (by simp [TreeShape.parts])) extent hw
  | bitfield base bits offset =>
      rw [Tree.head, unqualified_tag]
      exact restores_bitfield (hparts base (by simp [TreeShape.parts])) bits offset hw
  | pointer base =>
      rw [Tree.head, unqualified_tag]
      exact restores_pointer (hparts base (by simp [TreeShape.parts])) hw
  | leftRef base =>
      rw [Tree.head, unqualified_tag]
      exact restores_leftRef (hparts base (by simp [TreeShape.parts])) hw
  | rightRef base =>
      rw [Tree.head, unqualified_tag]
      exact restores_rightRef (hparts base (by simp [TreeShape.parts])) hw
  | function ret list conv =>
      rw [Tree.head, unqualified_tag]
      exact restores_function conv (hparts ret (by simp [TreeShape.parts])) (hr.params list rfl).1
        (fun tree hm => hparts tree (by simp [TreeShape.parts, hm])) hw
  | memberFunction owner ret list conv =>
      rw [Tree.head, unqualified_tag]
      exact restores_memberFunction conv (hr.owner owner rfl)
        (hparts owner (by simp [TreeShape.parts])) (hparts ret (by simp [TreeShape.parts]))
        (hr.params list rfl).1 (fun tree hm => hparts tree (by simp [TreeShape.parts, hm])) hw
  | memberPointer owner base =>
      rw [Tree.head, unqualified_tag]
      exact restores_memberPointer (hr.owner owner rfl) (hparts owner (by simp [TreeShape.parts]))
        (hparts base (by simp [TreeShape.parts])) hw
  | tuple list =>
      rw [Tree.head, unqualified_tag]
      exact restores_tuple ((hr.params list rfl).2 rfl) (hr.params list rfl).1
        (fun tree hm => hparts tree (by simp [TreeShape.parts, hm])) hw
  | classType name isStruct =>
      obtain ⟨texts, rfl⟩ := hn.name name rfl
      have htag : Tree.head (.classType (.ok texts) isStruct) =
          (if isStruct then ShapeTag.struct else ShapeTag.union).tag := by
        cases isStruct <;> rfl
      rw [htag, unqualified_tag]
      exact restores_classType texts isStruct hw
  | enumType name =>
      obtain ⟨texts, rfl⟩ := hn.name name rfl
      rw [Tree.head, unqualified_tag]
      exact restores_enumType texts hw

/-! ### Qualifiers -/

theorem restores_space {space : Space PathName} (hn : space.WellNamed)
    (h : space.record.stop = none) (hw : old.WellFormed) :
    ∃ own new, Reads Load.space space.record old own new ∧ old.Grows new ∧
      own.map new.pathName = space ∧
      ∀ known : Space PathId, known.map old.pathName = space → new = old := by
  obtain ⟨hp, hname⟩ := Output.stop_space h
  obtain ⟨storage, name⟩ := space
  have htagged := Reads.tagged storage old
  cases hd : storage.isDeclarable with
  | true =>
      obtain ⟨name, rfl⟩ : ∃ known, name = some known := Option.isSome_iff_exists.mp (hn.trans hd)
      obtain ⟨texts, rfl⟩ : PathName.Known name := hname hd
      obtain ⟨path, new, hreads, hg, hpath, hknown⟩ := restores_path texts old hw
      refine ⟨.declared storage path, new, ?_, hg, ?_, ?_⟩
      · have hrecord : Space.record ⟨storage, some (.ok texts)⟩ =
            .str storage.tag ++ .key (.ok texts) := by
          simp only [Space.record, hp, hd, Bool.false_eq_true, if_false, if_true, Option.getD_some]
        rw [hrecord]
        unfold Load.space
        refine htagged.bind rfl ?_
        simp only [hp, hd, Bool.false_eq_true, if_false, if_true]
        exact hreads.last (.pure _ new)
      · simp only [Space.map, Space.declared, hd, if_true, Option.map_some, hpath]
      · rintro ⟨_, _ | path'⟩ hk
        · simp [Space.map] at hk
        · simp only [Space.map, Option.map_some, Space.mk.injEq, Option.some.injEq] at hk
          exact hknown path' hk.2
  | false =>
      have hnone : name.isSome = false := hn.trans hd
      obtain rfl : name = none := by simpa using hnone
      refine ⟨.ofStorage storage, old, ?_, hw.grows, ?_, fun _ _ => rfl⟩
      · have hrecord : Space.record ⟨storage, none⟩ = .str storage.tag := by
          simp only [Space.record, hp, hd, Bool.false_eq_true, if_false]
        rw [hrecord]
        unfold Load.space
        refine htagged.last ?_
        simp only [hp, hd, Bool.false_eq_true, if_false]
        exact .pure _ old
      · simp [Space.map, Space.ofStorage, Space.declared, hd]

theorem restores_qual {written : Qual PathName} (hn : written.space.WellNamed)
    (h : written.record.stop = none) (hw : old.WellFormed) :
    ∃ own new, Reads qual written.record old own new ∧ old.Grows new ∧
      own.map new.pathName = written ∧
      ∀ known : Qual PathId, known.map old.pathName = written → new = old := by
  have hs := Output.stop_qual h
  obtain ⟨own, new, hreads, hg, hown, hknown⟩ := restores_space hn hs hw
  obtain ⟨space, isAtomic, isConst, isRestrict, isVolatile⟩ := written
  refine ⟨⟨own, isAtomic, isConst, isRestrict, isVolatile⟩, new, ?_, hg, ?_, ?_⟩
  · simp only [Qual.record, Output.append_assoc]
    exact hreads.bind hs ((Reads.bool _ new).bind rfl ((Reads.bool _ new).bind rfl
      ((Reads.bool _ new).bind rfl ((Reads.bool _ new).last (.pure _ new)))))
  · simp only [Qual.map, hown]
  · intro known hk
    exact hknown known.space (congrArg Qual.space hk)

/-! ### Types -/

/-- The record of a regular type is read back, given a depth no less than the number of its
items. -/
theorem canRestore_typeUpTo {tree : Tree} (hr : tree.Regular) :
    ∀ {depth : Nat}, tree.record.stop = none → tree.record.items.length ≤ depth →
      CanRestore (typeUpTo depth) tree := by
  induction hr with
  | @mk shape own hown hregular ih =>
      intro depth hs hd
      have hnamed : Tree.Named ⟨shape, own⟩ := Tree.Regular.named (.mk hown hregular) hs
      have hwritten := hs
      rw [Tree.record_eq, Output.append_assoc] at hs
      obtain ⟨_, hs'⟩ := Output.stop_append.mp hs
      obtain ⟨hfields, hqual⟩ := Output.stop_append.mp hs'
      cases depth with
      | zero =>
          rw [Tree.record_eq, Output.append_assoc, Output.length_items_append rfl] at hd
          exact absurd hd (by simp [Output.tag, Output.item])
      | succ depth =>
          have hparts : ∀ part ∈ TreeShape.parts shape, CanRestore (typeUpTo depth) part := by
            intro part hm
            obtain ⟨hps, hpl⟩ := Tree.record_part hwritten hm
            exact ih part hm hps (Nat.le_of_lt_succ (Nat.lt_of_lt_of_le hpl hd))
          refine ⟨hnamed, hwritten, fun old hw => ?_⟩
          have hname : shape.Named own := by
            cases hnamed with
            | mk named _ => exact named
          obtain ⟨plain, first, hp⟩ := restores_unqualified hown hname hparts hw
          have hw₁ := hp.grows.wellFormed
          obtain ⟨quals, second, hreads, hg, hq, hknown⟩ := restores_qual hown.space hqual hw₁
          have hplain : second.tree plain = .ok ⟨shape, Qual.none⟩ :=
            hg.tree hw₁ hnamed.plain hp.unfolds
          obtain ⟨type, new, hrun, hg', htree, hknown'⟩ :=
            hg.wellFormed.run_qualify hplain hnamed hq
          refine ⟨type, new, ?_, (hp.grows.trans hg).trans hg', htree, ?_⟩
          · rw [Tree.record_eq, Output.append_assoc]
            exact (Reads.tag _ old).bind rfl (hp.reads.bind hfields (hreads.last (.build hrun)))
          · intro known hk
            obtain rfl := hp.known known own hk
            obtain ⟨_, known', _, _, hk'⟩ := hw.tree_eq_ok.mp hk
            obtain rfl := hknown known' hk'
            exact hknown' known hk

/-- The record of a regular type is read back, whatever comes after it. -/
theorem canRestore_type {tree : Tree} (hr : tree.Regular) (hs : tree.record.stop = none) :
    CanRestore type tree := by
  have hdepth := canRestore_typeUpTo hr hs (Nat.le_refl _)
  refine ⟨hdepth.named, hs, fun old hw => ?_⟩
  obtain ⟨id, new, h⟩ := hdepth.restores old hw
  exact ⟨id, new, h.reads.type (Nat.le_refl _), h.grows, h.unfolds, h.known⟩

end Load

/-! ### Back into the store -/

namespace Store

variable {store : Store}

theorem save_eq_ok {type : TypeId} {items : List Item} :
    store.save type = ⟨items, none⟩ ↔
      ∃ tree, store.tree type = .ok tree ∧ tree.record = ⟨items, none⟩ := by
  unfold save
  cases store.tree type with
  | ok tree => simp
  | error failure => simp [Output.fail]

/-- A type that could be written is regular and can be read back. -/
theorem Reachable.canRestore (hr : store.Reachable) (hs : store.WellNamed) {type : TypeId}
    {tree : Tree} (ht : store.tree type = .ok tree) (h : tree.record.stop = none) :
    Load.CanRestore Load.type tree :=
  Load.canRestore_type (hr.wellFormed.regular hs tree ht) h

/-- The record of a type, read into the store it was written from, is that type. Exactly the record
is taken, and nothing is added to the store. -/
theorem Reachable.load_save (hr : store.Reachable) (hs : store.WellNamed) {type : TypeId}
    {front written : List Item}
    (hsave : (⟨front, none⟩ : Output) ++ store.save type = ⟨front ++ written, none⟩)
    (rest : List Item) :
    Load.type ⟨store, written ++ rest⟩ = .ok type ⟨store, rest⟩ := by
  have hwritten : store.save type = ⟨written, none⟩ := by
    generalize store.save type = out at hsave ⊢
    obtain ⟨items, stop⟩ := out
    simpa [Output.append_def] using hsave
  obtain ⟨tree, ht, hrecord⟩ := save_eq_ok.mp hwritten
  have hcan := hr.canRestore hs ht (by rw [hrecord])
  obtain ⟨id, new, h⟩ := hcan.restores store hr.wellFormed
  obtain rfl := h.known type ht
  obtain rfl := hr.wellFormed.type_eq_of_tree_eq hcan.named h.unfolds ht
  have hreads := h.reads rest
  rwa [hrecord] at hreads

/-- A pointer to nothing, written after one item and read before another. -/
theorem Reachable.load_save_pointer :
    ∃ (store : Store) (type : TypeId) (front written rest : List Item), store.Reachable ∧
      store.WellNamed ∧ front ≠ [] ∧ rest ≠ [] ∧
      (⟨front, none⟩ : Output) ++ store.save type = ⟨front ++ written, none⟩ ∧
      Load.type ⟨store, written ++ rest⟩ = .ok type ⟨store, rest⟩ := by
  let shape : Shape TypeId ParamSetId PathId := .pointer (.builtin .void)
  let store := (Store.new .wide).withNode (.plain shape)
  let type : TypeId := ⟨Builtin.all.length⟩
  let void : Tree := ⟨.builtin .void, Qual.none⟩
  have hr : store.Reachable :=
    ⟨.wide, .single ⟨.enter (.pointer (.builtin .void)), trivial, rfl⟩⟩
  have hs : store.WellNamed := by
    intro type node hn
    rcases Table.get?_insert_cases hn with hold | ⟨rfl, _⟩
    · obtain ⟨builtin, rfl⟩ := mem_builtinNodes.mp (Table.mem_of_get? hold)
      rfl
    · rfl
  have hn : store.node? type = some (.plain shape) := by decide +kernel
  have hvoid : store.tree (.builtin .void) = .ok void :=
    hr.wellFormed.tree_eq_ok.mpr ⟨.builtin .void, .none, ⟨_, hr.wellFormed.node?_builtin .void,
      spelling_eq_ok.mpr (.builtin .void)⟩, .builtin .void, rfl⟩
  have htree : store.tree type = .ok ⟨.pointer void, Qual.none⟩ :=
    hr.wellFormed.tree_eq_ok.mpr ⟨.pointer (.builtin .void), .none,
      ⟨_, hn, spelling_eq_ok.mpr (.pointer rfl)⟩, .pointer hvoid, rfl⟩
  have hsave : (⟨[.tag "decls"], none⟩ : Output) ++ store.save type =
      ⟨[.tag "decls"] ++ (Tree.record ⟨.pointer void, Qual.none⟩).items, none⟩ := by
    rw [save_eq_ok.mpr ⟨_, htree, rfl⟩]
    rfl
  exact ⟨store, type, [.tag "decls"], _, [.tag "bodies"], hr, hs, by simp, by simp, hsave,
    Reachable.load_save hr hs hsave _⟩

end Store

end TypeGraph
